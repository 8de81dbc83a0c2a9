import EtSoc.Verification.Session.Calm

/-! # What holds throughout a session -/

namespace EtSoc

open Function Program

/-- The commands that a call builds by itself exist and satisfy `B`; `A` describes the
addresses at which arguments may be staged. -/
def Call.Builds (B : Command → Prop) (A : ℕ → Prop) : Call → Prop
  | .launchAsync kernel opts => ∀ tag pointerToArgs, A pointerToArgs → ∃ cmd,
      buildKernelLaunch tag opts.flags kernel.codeStartAddress pointerToArgs opts.exceptionBuffer
        opts.shireMask opts.payload = some cmd ∧ B cmd
  | .resetShires shireMask => ∀ tag, ∃ cmd, buildCmReset tag shireMask = some cmd ∧ B cmd
  | _ => True

/-- The payload of a launch is short. -/
theorem LaunchOptions.payload_length_le (opts : LaunchOptions) : opts.payload.length ≤ 48 := by
  have hle : ∀ n v, (Bytes.leBytes n v).length = n := Bytes.length_leBytes
  unfold LaunchOptions.payload
  cases opts.trace <;> cases opts.stack <;>
    simp [TraceInitInfo.toBytes, UserStackCfg.toBytes, hle]

theorem Call.builds_any (A : ℕ → Prop) (call : Call) : call.Builds (fun _ => True) A := by
  cases call with
  | launchAsync kernel opts =>
    intro tag pointerToArgs _
    have := opts.payload_length_le
    exact ⟨_, command_of_lt (by simp only [cmnHeaderSize, kernelLaunchFixed]; omega) .., trivial⟩
  | resetShires shireMask => exact fun tag => ⟨_, rfl, trivial⟩
  | _ => trivial

/-- Whether a call may use or replace the staging buffers. -/
def Call.stages : Call → Bool
  | .upload .. | .loadKernel .. | .memcpyH2d .. | .memcpyD2h .. | .fill .. | .setStagingCapacity .. =>
    true
  | _ => false

/-- What the calls of a session that leave the staging buffers alone keep, whatever marks were
taken. -/
structure Sedate (H : Stop → Prop) (B : Command → Prop) (A : ℕ → Prop)
    (Q : List AllocMark → Sys → Prop) : Prop where
  calm : ∀ marks, Calm H B A (Q marks)
  zero : A 0
  timeout : ∀ marks s timeout, Q marks s →
    Q marks { s with dev := { s.dev with defaultTimeout := timeout } }
  alloc : ∀ marks size, Triple (Rested (Q marks)) (alloc size) (Calls H (Q marks))
  allocMark : ∀ marks, Triple (Rested (Q marks)) allocMark
    ⟨fun mark => Rested (Q (marks ++ [mark])), fun _ _ => False, fun _ _ => False⟩
  resetTo : ∀ marks k mark, marks[k]? = some mark →
    Triple (Rested (Q marks)) (resetTo k mark) (Calls H (Q marks))

/-- What all calls but changes of the staging capacity keep. -/
structure Settled (H : Stop → Prop) (B : Command → Prop) (A : ℕ → Prop)
    (Q : List AllocMark → Sys → Prop) : Prop extends Sedate H B A Q where
  transfers : ∀ marks, Staging H (Q marks)
  loadKernel : ∀ marks image, Triple (Rested (Q marks)) (loadKernel image) (Calls H (Q marks))

/-- What all calls of a session keep. -/
structure Steadfast (H : Stop → Prop) (B : Command → Prop) (A : ℕ → Prop)
    (Q : List AllocMark → Sys → Prop) : Prop extends Settled H B A Q where
  setStagingCapacity : ∀ marks bytes,
    Triple (Rested (Q marks)) (setStagingCapacity bytes) (Calls H (Q marks))

/-- Whether the call that returned so failed. -/
def Reply.isFailed : Reply → Bool
  | .failed _ => true
  | _ => false

/-- `Q` holds of a session, which if it stopped did so for a reason `H`. -/
structure Session.Holds (H : Stop → Prop) (Q : List AllocMark → Sys → Prop) (s : Session) :
    Prop where
  sys : Q s.marks s.sys
  pending : s.stopped = none → s.sys.pending = []
  reason : ∀ r, s.stopped = some r → H r

namespace Session

theorem take_eq_some {s s' : Session} {k : ℕ} {state : HandleState} {handle : Handle}
    (h : s.take k state = some (handle, s')) :
    s.handles[k]? = some handle ∧ handle.state = .held ∧
      s' = { s with handles := s.handles.set k { handle with state := state } } := by
  unfold take at h
  split at h
  · rename_i handle' hk
    split at h
    · rename_i hheld
      obtain ⟨rfl, rfl⟩ := Prod.mk.inj (Option.some.inj h)
      exact ⟨hk, hheld, rfl⟩
    · simp at h
  · simp at h

theorem step_of_stopped {s : Session} (hstop : s.stopped ≠ none) (call : Call) :
    s.step call = s := by
  unfold step
  exact if_pos (Option.isSome_iff_ne_none.2 hstop)

section
variable {α : Type} {m : M α} {keep : Session → α → Session × Reply} {call : Call} {s : Session}

theorem replies_suffix_perform {replies : List (Call × Reply)} (hs : replies = s.replies)
    (hkeep : ∀ t a, (keep t a).1.replies = t.replies) :
    replies <:+ (s.perform call m keep).replies := by
  subst hs
  unfold Session.perform
  split
  · dsimp only
    rw [hkeep]
    exact List.suffix_cons ..
  · exact List.suffix_cons ..
  · exact List.suffix_rfl

theorem replies_suffix_step (s : Session) (call : Call) : s.replies <:+ (s.step call).replies := by
  unfold Session.step
  split
  · exact List.suffix_rfl
  cases call with
  | resetTo | writePinned | dropPinned =>
    dsimp only
    split
    · apply replies_suffix_perform <;> intros <;> rfl
    · exact List.suffix_rfl
  | waitLaunch k =>
    dsimp only
    split
    · rename_i handle s' htake
      obtain ⟨-, -, rfl⟩ := take_eq_some htake
      apply replies_suffix_perform <;> intros <;> rfl
    · exact List.suffix_rfl
  | dropLaunch k =>
    dsimp only
    split
    · rename_i handle s' htake
      obtain ⟨-, -, rfl⟩ := take_eq_some htake
      exact List.suffix_cons ..
    · exact List.suffix_rfl
  | memcpyH2dPinned | memcpyD2hPinned =>
    simp only [Session.transferPinned]
    split
    · refine replies_suffix_perform rfl fun t r => ?_
      cases r.2 <;> rfl
    · exact List.suffix_rfl
  | _ =>
    apply replies_suffix_perform <;> intros <;> rfl

end

/-- The calls that have failed. -/
def failures (s : Session) : ℕ := s.replies.countP (·.2.isFailed)

theorem failures_le_step (s : Session) (call : Call) : s.failures ≤ (s.step call).failures :=
  (replies_suffix_step s call).sublist.countP_le

theorem failures_le_run (s : Session) (calls : List Call) : s.failures ≤ (s.run calls).failures := by
  induction calls generalizing s with
  | nil => exact Nat.le_refl _
  | cons call calls ih => exact (s.failures_le_step call).trans (ih _)

theorem stopped_of_run {s : Session} {calls : List Call} (h : (s.run calls).stopped = none) :
    s.stopped = none := by
  induction calls generalizing s with
  | nil => exact h
  | cons call calls ih =>
    by_contra hstop
    exact hstop (step_of_stopped hstop call ▸ ih h)

/-- A call that ends well, and keeps no mark. -/
theorem perform_holds {H : Stop → Prop} {Q : List AllocMark → Sys → Prop} {α : Type} {m : M α}
    {keep : Session → α → Session × Reply} {call : Call} {s : Session}
    (h : (Calls H (Q s.marks)).At (m s.sys)) (hstop : s.stopped = none)
    (hkeep : ∀ t a, (keep t a).1.marks = t.marks ∧ (keep t a).1.sys = t.sys ∧
      (keep t a).1.stopped = t.stopped) : (s.perform call m keep).Holds H Q := by
  unfold Session.perform
  split <;> rename_i heq <;> rw [heq] at h
  · rename_i a sys
    obtain ⟨hmarks, hsys, hstopped⟩ := hkeep { s with sys := sys } a
    refine ⟨?_, fun _ => ?_, fun r hr => ?_⟩
    · change Q (keep { s with sys := sys } a).1.marks (keep { s with sys := sys } a).1.sys
      rw [hmarks, hsys]
      exact h.1
    · change (keep { s with sys := sys } a).1.sys.pending = []
      rw [hsys]
      exact h.2
    · rw [show _ = s.stopped from hstopped, hstop] at hr
      simp at hr
  · exact ⟨h.1, fun _ => h.2, fun r hr => by simp [hstop] at hr⟩
  · exact ⟨h.2, by simp, fun r hr => Option.some.inj hr ▸ h.1⟩

end Session

namespace Sedate
variable {H : Stop → Prop} {B : Command → Prop} {A : ℕ → Prop} {Q : List AllocMark → Sys → Prop}
  {marks : List AllocMark}

/-- A call that keeps no mark. -/
theorem perform {α : Type} {m : M α} {keep : Session → α → Session × Reply} {call : Call}
    {s : Session} (hm : Triple (Rested (Q s.marks)) m (Calls H (Q s.marks)))
    (hs : s.Holds H Q) (hstop : s.stopped = none)
    (hkeep : ∀ t a, (keep t a).1.marks = t.marks ∧ (keep t a).1.sys = t.sys ∧
      (keep t a).1.stopped = t.stopped) : (s.perform call m keep).Holds H Q :=
  Session.perform_holds (hm s.sys ⟨hs.sys, hs.pending hstop⟩) hstop hkeep

variable (h : Sedate H B A Q)
include h

theorem unstaged : Unstaged H (Rested (Q marks)) := (h.calm marks).toUnstaged.rested

omit h in
/-- A step of the moving of bytes, as a call. -/
theorem calls {α : Type} {m : M α} (hm : Triple (Rested (Q marks)) m (Always H (Rested (Q marks)))) :
    Triple (Rested (Q marks)) m (Calls H (Q marks)) :=
  hm.conseq (fun _ h => h) (fun _ _ h => h) (fun _ _ h => h) fun _ hs => ⟨hs.1, hs.2.1⟩

omit h in
theorem limitUnless (p : Prop) [Decidable p] (message : String) :
    Triple (Rested (Q marks)) (limitUnless p message) (Calls H (Q marks)) :=
  .ite (fun _ => .pure fun _ h => h) fun _ => .throw fun _ h => h

theorem allocArray (elemSize n : ℕ) :
    Triple (Rested (Q marks)) (allocArray elemSize n) (Calls H (Q marks)) :=
  .bind (.bind (limitUnless _ _) fun _ => .pure fun _ h => h) fun _ => h.alloc _ _

theorem allocPadded (elemSize n : ℕ) :
    Triple (Rested (Q marks)) (allocPadded elemSize n) (Calls H (Q marks)) :=
  .ite (fun _ => calls (h.unstaged.panic (by decide))) fun _ =>
    .bind (.bind (limitUnless _ _) fun _ => .pure fun _ h => h) fun _ => h.alloc _ _

theorem allocTensorMatrix (rows cols : ℕ) :
    Triple (Rested (Q marks)) (allocTensorMatrix rows cols) (Calls H (Q marks)) :=
  .bind (limitUnless _ _) fun _ => .bind (limitUnless _ _) fun _ => .bind (limitUnless _ _)
    fun _ => .bind (h.alloc _ _) fun _ => .bind (limitUnless _ _) fun _ => .pure fun _ h => h

theorem allocPinned (len : ℕ) :
    Triple (Rested (Q marks)) (allocPinned len) (Calls H (Q marks)) :=
  .bind (calls (h.unstaged.dmaHostBuffer (by decide) _)) fun _ => .read_bind fun _ =>
    .pure fun _ h => h.1

theorem writePinned (buffer : PinnedBuffer) (data : List UInt8) :
    Triple (Rested (Q marks)) (Session.writePinned buffer data) (Calls H (Q marks)) := by
  unfold Session.writePinned
  split
  · exact calls (h.unstaged.writeHost _ _ _)
  · exact .pure fun _ h => h

omit h in
/-- A transfer of a pinned buffer, which the client keeps as it is afterwards. -/
theorem transferPinned {call : Call} {k : ℕ} {m : PinnedBuffer → M (PinnedBuffer × Except Error Unit)}
    {reply : Session → PinnedBuffer → Reply} {s : Session} (hs : s.Holds H Q)
    (hstop : s.stopped = none)
    (hm : ∀ buffer, Triple (Rested (Q s.marks)) (m buffer) (Calls H (Q s.marks))) :
    (s.transferPinned call k m reply).Holds H Q := by
  unfold Session.transferPinned
  split
  · refine perform (hm _) hs hstop fun t (buffer, result) => ?_
    cases result <;> exact ⟨rfl, rfl, rfl⟩
  · exact hs

/-- A call that leaves the staging buffers alone. -/
theorem step {s : Session} (hs : s.Holds H Q) {call : Call} (hbuilds : call.Builds B A)
    (hstages : call.stages = false) : (s.step call).Holds H Q := by
  unfold Session.step
  split
  · exact hs
  rename_i hstop
  have hstop : s.stopped = none := by simpa using hstop
  have hstream := (h.calm s.marks).streaming
  have hself : ∀ {α : Type} {reply : α → Reply} (t : Session) (a : α),
      ((fun s a => (s, reply a) : Session → α → Session × Reply) t a).1.marks = t.marks ∧
      ((fun s a => (s, reply a) : Session → α → Session × Reply) t a).1.sys = t.sys ∧
      ((fun s a => (s, reply a) : Session → α → Session × Reply) t a).1.stopped = t.stopped :=
    fun _ _ => ⟨rfl, rfl, rfl⟩
  cases call with
  | alloc size => exact perform (h.alloc _ _) hs hstop hself
  | allocArray elemSize n => exact perform (h.allocArray _ _) hs hstop hself
  | allocPadded elemSize n => exact perform (h.allocPadded _ _) hs hstop hself
  | allocTensorMatrix rows cols => exact perform (h.allocTensorMatrix _ _) hs hstop hself
  | allocMark =>
    have hmark := h.allocMark s.marks s.sys ⟨hs.sys, hs.pending hstop⟩
    dsimp only
    unfold Session.perform
    split <;> rename_i heq <;> rw [heq] at hmark
    · exact ⟨hmark.1, fun _ => hmark.2, hs.reason⟩
    · exact hmark.elim
    · exact hmark.elim
  | resetTo k =>
    dsimp only
    split
    · rename_i mark hk
      exact perform (h.resetTo _ _ _ hk) hs hstop hself
    · exact hs
  | launchAsync kernel opts =>
    exact perform ((h.calm s.marks).launchAsync h.zero hbuilds) hs hstop fun _ _ => ⟨rfl, rfl, rfl⟩
  | waitLaunch k =>
    dsimp only
    split
    · rename_i handle s' htake
      obtain ⟨-, -, rfl⟩ := Session.take_eq_some htake
      exact perform ((h.calm s.marks).toNumb.waitLaunch (h.calm s.marks).pending _)
        ⟨hs.sys, hs.pending, hs.reason⟩ hstop hself
    · exact hs
  | dropLaunch k =>
    dsimp only
    split
    · rename_i handle s' htake
      obtain ⟨-, -, rfl⟩ := Session.take_eq_some htake
      exact ⟨hs.sys, hs.pending, hs.reason⟩
    · exact hs
  | allocPinned len => exact perform (h.allocPinned _) hs hstop fun _ _ => ⟨rfl, rfl, rfl⟩
  | writePinned k data =>
    dsimp only
    split
    · exact perform (h.writePinned _ _) hs hstop hself
    · exact hs
  | memcpyH2dPinned k dst opts =>
    exact transferPinned hs hstop fun _ => hstream.memcpyH2dPinnedOpts _ _ _
  | memcpyD2hPinned src k opts =>
    exact transferPinned hs hstop fun _ => hstream.memcpyD2hPinnedOpts _ _ _
  | dropPinned k =>
    dsimp only
    split
    · rename_i buffer _
      exact perform (s := { s with pinned := _ }) (calls (h.unstaged.unmap buffer.host.toList))
        ⟨hs.sys, hs.pending, hs.reason⟩ hstop hself
    · exact hs
  | resetShires shireMask => exact perform ((h.calm s.marks).resetShires hbuilds) hs hstop hself
  | setDefaultLaunchTimeout timeout =>
    exact perform (.modify fun t ht => ⟨h.timeout _ t timeout ht.1, ht.2⟩) hs hstop hself
  | idle => exact perform (calls h.unstaged.tick) hs hstop hself
  | upload | loadKernel | memcpyH2d | memcpyD2h | fill | setStagingCapacity => simp [Call.stages] at hstages

end Sedate

namespace Settled
variable {H : Stop → Prop} {B : Command → Prop} {A : ℕ → Prop} {Q : List AllocMark → Sys → Prop}
  {marks : List AllocMark} (h : Settled H B A Q)
include h

theorem upload (elemSize n : ℕ) (data : List UInt8) :
    Triple (Rested (Q marks)) (upload elemSize n data) (Calls H (Q marks)) :=
  .bind (h.allocArray _ _) fun _ => .bind ((h.transfers marks).memcpyH2dOpts _ _ _) fun _ =>
    .pure fun _ h => h

theorem step {s : Session} (hs : s.Holds H Q) {call : Call} (hbuilds : call.Builds B A)
    (hcapacity : ∀ bytes, call ≠ .setStagingCapacity bytes) : (s.step call).Holds H Q := by
  by_cases hstages : call.stages = false
  · exact h.toSedate.step hs hbuilds hstages
  unfold Session.step
  split
  · exact hs
  rename_i hstop
  have hstop : s.stopped = none := by simpa using hstop
  have htransfers := h.transfers s.marks
  have hself : ∀ {α : Type} {reply : α → Reply} (t : Session) (a : α),
      ((fun s a => (s, reply a) : Session → α → Session × Reply) t a).1.marks = t.marks ∧
      ((fun s a => (s, reply a) : Session → α → Session × Reply) t a).1.sys = t.sys ∧
      ((fun s a => (s, reply a) : Session → α → Session × Reply) t a).1.stopped = t.stopped :=
    fun _ _ => ⟨rfl, rfl, rfl⟩
  cases call with
  | upload elemSize n data => exact Sedate.perform (h.upload _ _ _) hs hstop hself
  | loadKernel image slice => exact Sedate.perform (h.loadKernel _ _) hs hstop hself
  | memcpyH2d src dst opts => exact Sedate.perform (htransfers.memcpyH2dOpts _ _ _) hs hstop hself
  | memcpyD2h src len opts => exact Sedate.perform (htransfers.memcpyD2hOpts _ _ _) hs hstop hself
  | fill region value => exact Sedate.perform (htransfers.fillRegion _ _) hs hstop hself
  | setStagingCapacity bytes => exact absurd rfl (hcapacity bytes)
  | _ => simp [Call.stages] at hstages

theorem run {s : Session} (hs : s.Holds H Q) {calls : List Call}
    (hbuilds : ∀ call ∈ calls, call.Builds B A)
    (hcapacity : ∀ bytes, .setStagingCapacity bytes ∉ calls) : (s.run calls).Holds H Q := by
  induction calls generalizing s with
  | nil => exact hs
  | cons call calls ih =>
    have hstep := h.step hs (hbuilds call List.mem_cons_self) fun bytes heq =>
      hcapacity bytes (heq ▸ List.mem_cons_self)
    exact ih hstep (fun call' hmem => hbuilds call' (List.mem_cons_of_mem _ hmem))
      fun bytes hmem => hcapacity bytes (List.mem_cons_of_mem _ hmem)

end Settled

namespace Steadfast
variable {H : Stop → Prop} {B : Command → Prop} {A : ℕ → Prop} {Q : List AllocMark → Sys → Prop}
  (h : Steadfast H B A Q)
include h

theorem step {s : Session} (hs : s.Holds H Q) {call : Call} (hbuilds : call.Builds B A) :
    (s.step call).Holds H Q := by
  by_cases hcapacity : ∀ bytes, call ≠ .setStagingCapacity bytes
  · exact h.toSettled.step hs hbuilds hcapacity
  simp only [not_forall, not_not] at hcapacity
  obtain ⟨bytes, rfl⟩ := hcapacity
  unfold Session.step
  split
  · exact hs
  · rename_i hstop
    exact Sedate.perform (h.setStagingCapacity _ _) hs (by simpa using hstop)
      fun _ _ => ⟨rfl, rfl, rfl⟩

theorem run {s : Session} (hs : s.Holds H Q) {calls : List Call}
    (hbuilds : ∀ call ∈ calls, call.Builds B A) : (s.run calls).Holds H Q := by
  induction calls generalizing s with
  | nil => exact hs
  | cons call calls ih =>
    exact ih (h.step hs (hbuilds call List.mem_cons_self))
      fun call' hmem => hbuilds call' (List.mem_cons_of_mem _ hmem)

end Steadfast

end EtSoc

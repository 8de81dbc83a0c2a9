import EtSoc.Model.World

/-! # What one step of the device can do -/

namespace EtSoc.World

open Function

/-- The ways in which `act` can change the world. -/
inductive Moves (w : World) : World → Prop where
  | rest : Moves w w
  | start {c a} (ha : w.accepted[c]? = some a) (h : w.MayStart c a) : Moves w (w.start c)
  | copy {c a node} (ha : w.accepted[c]? = some a) (hnode : node ∈ w.left c)
      (hrun : w.running c = true) : Moves w (w.copy c a.cmd.isWrite node)
  | exec {c a launch} (ha : w.accepted[c]? = some a) (hlaunch : a.cmd.launch? = some launch)
      (hrun : w.running c = true) (hran : w.ran c = false) : Moves w (w.exec c launch)
  | respond {c a rsp} (ha : w.accepted[c]? = some a) (h : w.MayAnswer c a rsp) :
      Moves w (w.respond c rsp)

theorem act_moves (w : World) (d : DevStep) : w.Moves (w.act d) := by
  cases d with
  | start c =>
    simp only [act]
    split
    · split
      · exact .start ‹_› ‹_›
      · exact .rest
    · exact .rest
  | copy c k =>
    simp only [act]
    split
    · split
      · exact .copy ‹_› (List.mem_of_getElem? ‹_›) ‹_›
      · exact .rest
    · exact .rest
  | exec c =>
    simp only [act]
    split
    · rename_i launch heq
      obtain ⟨a, ha, hlaunch⟩ := Option.bind_eq_some_iff.1 heq
      split
      · rename_i h
        exact .exec ha hlaunch h.1 h.2
      · exact .rest
    · exact .rest
  | answer c rsp =>
    simp only [act]
    split
    · split
      · exact .respond ‹_› ‹_›
      · exact .rest
    · exact .rest

theorem running_iff {w : World} {c : ℕ} :
    w.running c = true ↔ w.started c = true ∧ w.answer c = none := by
  simp [running]

/-! ## The fields that each operation leaves alone -/

section copy
variable (w : World) (c : ℕ) (isWrite : Bool) (node : DmaNode)

@[simp] theorem copy_machine : (w.copy c isWrite node).machine = w.machine := by
  cases isWrite <;> rfl

@[simp] theorem copy_accepted : (w.copy c isWrite node).accepted = w.accepted := by
  cases isWrite <;> rfl

@[simp] theorem copy_left :
    (w.copy c isWrite node).left = update w.left c ((w.left c).erase node) := by
  cases isWrite <;> rfl

@[simp] theorem copy_started : (w.copy c isWrite node).started = w.started := by
  cases isWrite <;> rfl

@[simp] theorem copy_ran : (w.copy c isWrite node).ran = w.ran := by
  cases isWrite <;> rfl

@[simp] theorem copy_answer : (w.copy c isWrite node).answer = w.answer := by
  cases isWrite <;> rfl

@[simp] theorem copy_popped : (w.copy c isWrite node).popped = w.popped := by
  cases isWrite <;> rfl

@[simp] theorem copy_nextBuf : (w.copy c isWrite node).nextBuf = w.nextBuf := by
  cases isWrite <;> rfl

@[simp] theorem copy_history : (w.copy c isWrite node).history = w.history := by
  cases isWrite <;> rfl

theorem copy_mem_of_read : (w.copy c false node).mem = w.mem := rfl

theorem copy_mem_of_write : (w.copy c true node).mem =
    Spans.blit w.mem node.devicePhyAddr (w.host node.hostVirtAddr.buf) node.hostVirtAddr.offset
      node.size := rfl

theorem copy_host_of_write : (w.copy c true node).host = w.host := rfl

theorem copy_host_of_read : (w.copy c false node).host =
    update w.host node.hostVirtAddr.buf
      (Spans.blit (w.host node.hostVirtAddr.buf) node.hostVirtAddr.offset w.mem
        node.devicePhyAddr node.size) := rfl

end copy

/-! ## What a device step leaves alone -/

section step
variable {w w' : World}

theorem Moves.machine (h : w.Moves w') : w'.machine = w.machine := by
  cases h <;> first | rfl | exact copy_machine ..

theorem Moves.accepted (h : w.Moves w') : w'.accepted = w.accepted := by
  cases h <;> first | rfl | exact copy_accepted ..

theorem Moves.popped (h : w.Moves w') : w'.popped = w.popped := by
  cases h <;> first | rfl | exact copy_popped ..

theorem Moves.nextBuf (h : w.Moves w') : w'.nextBuf = w.nextBuf := by
  cases h <;> first | rfl | exact copy_nextBuf ..

/-- An answer given stays. -/
theorem Moves.answer (h : w.Moves w') {c : ℕ} {rsp : List UInt8}
    (hc : w.answer c = some rsp) : w'.answer c = some rsp := by
  cases h with
  | respond ha hmay =>
    rename_i c' a rsp'
    have hnone := (running_iff.1 hmay.1).2
    have hne : c ≠ c' := by
      rintro rfl
      simp [hnone] at hc
    simpa [World.respond, update_of_ne hne] using hc
  | copy => simpa using hc
  | _ => exact hc

variable (w) (d : DevStep)

@[simp] theorem step_machine : (w.step d).machine = w.machine := (w.act_moves d).machine

@[simp] theorem step_accepted : (w.step d).accepted = w.accepted := (w.act_moves d).accepted

@[simp] theorem step_popped : (w.step d).popped = w.popped := (w.act_moves d).popped

@[simp] theorem step_nextBuf : (w.step d).nextBuf = w.nextBuf := (w.act_moves d).nextBuf

end step

theorem steps_machine (w : World) (ds : List DevStep) : (w.steps ds).machine = w.machine := by
  induction ds generalizing w with
  | nil => rfl
  | cons d ds ih => exact (ih _).trans (w.step_machine d)

theorem steps_accepted (w : World) (ds : List DevStep) : (w.steps ds).accepted = w.accepted := by
  induction ds generalizing w with
  | nil => rfl
  | cons d ds ih => exact (ih _).trans (w.step_accepted d)

theorem steps_nextBuf (w : World) (ds : List DevStep) : (w.steps ds).nextBuf = w.nextBuf := by
  induction ds generalizing w with
  | nil => rfl
  | cons d ds ih => exact (ih _).trans (w.step_nextBuf d)

end EtSoc.World

import EtSoc.Verification.Session.Deaf

/-! # Properties that launches do not matter to -/

namespace EtSoc

open Function Program

variable {H : Stop → Prop} {Q P : Sys → Prop} {α β : Type}

/-! ## Waiting for a launch -/

namespace Numb
variable {B : Command → Prop} (h : Numb H B Q) (hp : Unpending Q)
include h hp

theorem waitLaunch (launch : PendingLaunch) :
    Triple (Rested Q) (waitLaunch launch) (Calls H Q) := by
  have hcalls : ∀ {α : Type} {m : M α}, Triple (Rested Q) m (Always H (Rested Q)) →
      Triple (Rested Q) m (Calls H Q) := fun hm =>
    hm.conseq (fun _ h => h) (fun _ _ h => h) (fun _ _ h => h) fun _ hs => ⟨hs.1, hs.2.1⟩
  have hawait : Triple (fun s => Q s ∧ s.pending = launch.argsDma)
      (EtSoc.awaitDma launch.argsDma.length (some launch.timeout) "dma-writelist") (Calls H Q) := by
    refine .read_bind fun tags => .ite (fun _ => .panic fun s hs => ⟨h.panics _ (by decide), hs.1.1⟩)
      fun _ => .modify_bind (R := Rested Q) (fun s hs => ⟨hp s _ hs.1.1, ?_⟩)
        (hcalls (h.rested.awaitEach _ _ _))
    rw [← hs.2, hs.1.2]
    exact List.drop_length
  refine .bind (R := fun _ s => Q s ∧ s.pending = launch.argsDma)
    (.modify fun s hs => ⟨hp s _ hs.1, rfl⟩) fun _ => .bind (R := fun _ => Rested Q)
      (.attempt hawait) fun staged => ?_
  cases staged with
  | error e =>
    exact .bind ((h.abandonAll hp).pre fun _ h => h.1) fun _ =>
      .bind (h.rested.abandon _) fun _ => .throw fun _ h => h
  | ok u =>
    refine .bind (hcalls (h.rested.collectResponse _ _ _)) fun rsp => ?_
    split
    · exact .throw fun _ h => h
    · exact .ite (fun _ => .throw fun _ h => h) fun _ => .pure fun _ h => h

end Numb

/-! ## Launches -/

/-- `Q` outlasts the parts of a launch; `R` holds while a tag is reserved for it. -/
structure Submits (H : Stop → Prop) (B : Command → Prop) (A : ℕ → Prop) (Q : Sys → Prop)
    (R : Tag → Sys → Prop) : Prop extends Streaming H Q, Unstaged H Q where
  idle : ∀ s, Q s → Q { s with pending := [] }
  slots : ∀ s i f, (∀ slot : ArgsSlot, (f slot).region = slot.region) → Q s →
    Q { s with dev := { s.dev with argsSlots := s.dev.argsSlots.modify i f } }
  addr : ∀ s, Q s → ∀ slot ∈ s.dev.argsSlots, A slot.region.addr
  nextTag : Triple Q nextTag ⟨R, fun _ => Q, fun r s => H r ∧ Q s⟩
  pushCmd : ∀ sqIndex cmd descFlags tag, B cmd →
    Triple (R tag) (pushCmd sqIndex cmd descFlags tag) (Always H Q)

/-- `Q` is neither concerned with transfers nor with launches, as long as their commands
satisfy `B` and the addresses of argument slots satisfy `A`. -/
structure Calm (H : Stop → Prop) (B : Command → Prop) (A : ℕ → Prop) (Q : Sys → Prop) : Prop
    extends Numb H B Q, Unstaged H Q where
  pending : Unpending Q
  push : ∀ direction host len addr opts,
    Triple Q (pushDmaStaged direction host len addr opts) (Always H Q)
  slots : ∀ s i f, (∀ slot : ArgsSlot, (f slot).region = slot.region) → Q s →
    Q { s with dev := { s.dev with argsSlots := s.dev.argsSlots.modify i f } }
  argsSlot : ∀ len, Triple (Rested Q) (argsSlot len) (Calls H Q)
  addr : ∀ s, Q s → ∀ slot ∈ s.dev.argsSlots, A slot.region.addr

namespace Submits
variable {B : Command → Prop} {A : ℕ → Prop} {R : Tag → Sys → Prop} (h : Submits H B A Q R)
include h

theorem setSlot (i : ℕ) (f : ArgsSlot → ArgsSlot)
    (hf : ∀ slot, (f slot).region = slot.region := by exact fun _ => rfl)
    {E : Error → Sys → Prop} {S : Stop → Sys → Prop} :
    Triple Q (setSlot i f) ⟨fun _ => Q, E, S⟩ :=
  .modify fun s hs => h.slots s i f hf hs

theorem assignOwner (i : ℕ) (tag : Option Tag) {E : Error → Sys → Prop} {S : Stop → Sys → Prop} :
    Triple Q (assignOwner i tag) ⟨fun _ => Q, E, S⟩ := by
  cases tag with
  | some tag => exact h.setSlot i _
  | none => exact .pure fun _ h => h

/-- A program that passes its value on, whatever else it does. -/
theorem pushArgsDma (i : ℕ) (args : List UInt8) (sqIndex : UInt16) :
    Triple Q (pushArgsDma i args sqIndex) ⟨fun addr s => A addr ∧ Q s, fun _ => Q,
      fun r s => H r ∧ Q s⟩ := by
  refine .read_bind fun dev => .bind (R := fun slot s => A slot.region.addr ∧ Q s) ?_ fun slot =>
    .and_pre fun haddr => ?_
  · cases hslot : dev.argsSlots[i]? with
    | none => exact .panic fun s hs => ⟨h.panics _ (by decide), hs.1⟩
    | some slot =>
      exact .pure fun s hs => ⟨h.addr s hs.1 slot (hs.2 ▸ List.mem_of_getElem? hslot), hs.1⟩
  refine .bind (h.setSlot i _) fun _ => .bind (R := fun _ => Q) ?_ fun host => ?_
  · unfold slotHost
    split
    · exact .pure fun _ h => h
    · exact h.dmaHostBuffer (by decide) _
  refine .bind (h.writeHost _ _ _) fun _ => .bind (R := fun _ => Q) (.attempt (h.push _ _ _ _ _))
    fun pushed => .bind (h.setSlot i _) fun _ => .read_bind fun _ =>
      .bind ((h.assignOwner _ _).pre fun _ h => h.1) fun _ =>
        .ofExcept (fun addr haddr s hs => ⟨?_, hs⟩) fun _ _ _ hs => hs
  cases pushed with
  | error e => simp [Except.map] at haddr
  | ok u => rwa [← Except.ok.inj haddr]

theorem orAbandon {m : M α} {T : α → Sys → Prop}
    (hm : Triple P m ⟨T, fun _ => Q, fun r s => H r ∧ Q s⟩) :
    Triple P (orAbandon m) ⟨T, fun _ => Rested Q, fun r s => H r ∧ Q s⟩ := by
  refine .attempt_bind hm (fun a => .pure fun _ h => h) fun e => ?_
  exact .bind (h.abandonAll.conseq (fun _ h => h) (fun _ _ h => h) (fun _ _ h => h.elim)
    fun _ h => h.elim) fun _ => .throw fun _ h => h

theorem awaitArgs (opts : LaunchOptions) : Triple Q (awaitArgs opts) (Always H Q) :=
  .ite (fun _ => .pure fun _ h => h) fun _ => .read_bind fun _ =>
    (h.await _ _ _).pre fun _ h => h.1

theorem stageArgs {opts : LaunchOptions} (hzero : A 0) (hnone : opts.args = [] → ∀ s, P s → Q s)
    (hslot : opts.args ≠ [] → Triple P (argsSlot opts.args.length) (Calls H Q)) :
    Triple P (stageArgs opts) ⟨fun r s => A r.2 ∧ Q s, fun _ => Rested Q,
      fun r s => H r ∧ Q s⟩ := by
  refine .ite (fun hnil => .pure fun s hs => ⟨hzero, hnone (by simpa using hnil) s hs⟩) fun hargs =>
    .bind (hslot (by simpa using hargs)) fun slot => ?_
  refine .bind (R := fun addr s => A addr ∧ Q s) ((h.orAbandon ?_).pre fun _ h => h.1)
    fun addr => .pure fun _ h => h
  exact .bind (h.pushArgsDma _ _ _) fun addr => .and_pre fun haddr => .bind (h.awaitArgs opts)
    fun _ => .pure fun _ hs => ⟨haddr, hs⟩

/-- What a launch keeps once its arguments are staged. -/
theorem launchStaged {kernel : LoadedKernel} {opts : LaunchOptions}
    (hpre : ∀ s, P s → s.pending = [])
    (hstage : Triple P (EtSoc.stageArgs opts) ⟨fun r s => A r.2 ∧ Q s, fun _ => Rested Q,
      fun r s => H r ∧ Q s⟩)
    (hbuilt : ∀ tag pointerToArgs, A pointerToArgs → ∃ cmd, buildKernelLaunch tag opts.flags
      kernel.codeStartAddress pointerToArgs opts.exceptionBuffer opts.shireMask opts.payload =
        some cmd ∧ B cmd) :
    Triple P (launchAsync kernel opts) (Calls H Q) := by
  refine .bind (setPending_idle hpre) fun _ => .bind (hstage.conseq (fun _ h => h)
    (fun _ _ h => h) (fun _ _ h => h) fun _ h => h) fun (slot, pointerToArgs) =>
      .and_pre fun haddr => ?_
  refine .bind (h.orAbandon h.nextTag) fun tag => ?_
  obtain ⟨cmd, hcmd, hB⟩ := hbuilt tag pointerToArgs haddr
  rw [hcmd]
  refine .bind (R := fun c s => c = cmd ∧ R tag s) (.pure fun _ h => ⟨rfl, h⟩) fun c =>
    .and_pre fun hc => ?_
  refine .bind (R := fun _ => Q) (h.orAbandon (h.pushCmd _ _ _ _ (hc ▸ hB))) fun _ => ?_
  refine .bind (R := fun _ => Q) ?_ fun _ => .read_bind fun _ => .read_bind fun _ =>
    .bind (R := fun _ => Rested Q) (.modify fun s hs => ⟨h.idle s hs.1.1, rfl⟩)
      fun _ => .pure fun _ h => h
  cases slot with
  | some i => exact h.assignOwner i (some tag)
  | none => exact .pure fun _ h => h

theorem launchAsync {kernel : LoadedKernel} {opts : LaunchOptions} (hzero : A 0)
    (hpre : ∀ s, P s → Rested Q s)
    (hslot : opts.args ≠ [] → Triple P (argsSlot opts.args.length) (Calls H Q))
    (hbuilt : ∀ tag pointerToArgs, A pointerToArgs → ∃ cmd, buildKernelLaunch tag opts.flags
      kernel.codeStartAddress pointerToArgs opts.exceptionBuffer opts.shireMask opts.payload =
        some cmd ∧ B cmd) :
    Triple P (launchAsync kernel opts) (Calls H Q) :=
  h.launchStaged (fun s hs => (hpre s hs).2) (h.stageArgs hzero (fun _ s hs => (hpre s hs).1) hslot) hbuilt

end Submits

/-- What neither tags nor launches matter to outlasts the parts of a launch. -/
theorem Numb.submits {B : Command → Prop} {A : ℕ → Prop} (h : Numb H B Q) (hu : Unstaged H Q)
    (hp : Unpending Q) (hpush : ∀ direction host len addr opts,
      Triple Q (EtSoc.pushDmaStaged direction host len addr opts) (Always H Q))
    (hslots : ∀ s i f, (∀ slot : ArgsSlot, (f slot).region = slot.region) → Q s →
      Q { s with dev := { s.dev with argsSlots := s.dev.argsSlots.modify i f } })
    (haddr : ∀ s, Q s → ∀ slot ∈ s.dev.argsSlots, A slot.region.addr) :
    Submits H B A Q fun _ => Q where
  toStreaming := h.streaming hp hpush
  mapOther := hu.mapOther
  unmapped := hu.unmapped
  idle s := hp s []
  slots := hslots
  addr := haddr
  nextTag := h.nextTag
  pushCmd _ _ _ _ := h.pushCmd

namespace Calm
variable {B : Command → Prop} {A : ℕ → Prop} (h : Calm H B A Q)
include h

theorem streaming : Streaming H Q := h.toNumb.streaming h.pending h.push

theorem submits : Submits H B A Q fun _ => Q :=
  h.toNumb.submits h.toUnstaged h.pending h.push h.slots h.addr

theorem launchAsync {kernel : LoadedKernel} {opts : LaunchOptions} (hzero : A 0)
    (hbuilt : ∀ tag pointerToArgs, A pointerToArgs → ∃ cmd, buildKernelLaunch tag opts.flags
      kernel.codeStartAddress pointerToArgs opts.exceptionBuffer opts.shireMask opts.payload =
        some cmd ∧ B cmd) :
    Triple (Rested Q) (launchAsync kernel opts) (Calls H Q) :=
  h.submits.launchAsync hzero (fun _ hs => hs) (fun _ => h.argsSlot _) hbuilt

theorem resetShires {shireMask : ℕ}
    (hbuilt : ∀ tag, ∃ cmd, buildCmReset tag shireMask = some cmd ∧ B cmd) :
    Triple (Rested Q) (resetShires shireMask) (Calls H Q) := by
  have hr := h.rested
  have hmain : Triple (Rested Q) (EtSoc.resetShires shireMask) (Always H (Rested Q)) := by
    refine .bind hr.nextTag fun tag => ?_
    obtain ⟨cmd, hcmd, hB⟩ := hbuilt tag
    rw [hcmd]
    refine .bind (R := fun c s => c = cmd ∧ Rested Q s) (.pure fun _ h => ⟨rfl, h⟩) fun c =>
      .and_pre fun hc => .read_bind fun dev => .pre (P := Rested Q) ?_ fun _ h => h.1
    refine .bind (.bind (hr.pushCmd (hc ▸ hB)) fun _ => hr.collectResponse _ _ _) fun rsp => ?_
    split
    · exact .throw fun _ h => h
    · exact .ite (fun _ => .throw fun _ h => h) fun _ => .pure fun _ h => h
  exact hmain.conseq (fun _ h => h) (fun _ _ h => h) (fun _ _ h => h) fun _ hs => ⟨hs.1, hs.2.1⟩

end Calm

end EtSoc

import EtSoc.Model.Session

/-! # Properties that the moving of bytes does not matter to -/

namespace EtSoc

open Function Program

/-- The one panic of the command builders. -/
def commandSizePanic : Stop := .panic "command exceeds the u16 size field"

/-- `Q` holds however a program ends, and it stops only for reasons `H`. -/
def Always (H : Stop → Prop) (Q : Sys → Prop) {α : Type} : Post Sys Error α :=
  ⟨fun _ => Q, fun _ => Q, fun r s => H r ∧ Q s⟩

/-- `Q` holds between two calls. -/
def Rested (Q : Sys → Prop) (s : Sys) : Prop := Q s ∧ s.pending = []

/-- The same, where no command is pending after a value or an error. -/
def Calls (H : Stop → Prop) (Q : Sys → Prop) {α : Type} : Post Sys Error α :=
  ⟨fun _ => Rested Q, fun _ => Rested Q, fun r s => H r ∧ Q s⟩

/-- `Q` does not depend on what the device does, nor on what host buffers hold. -/
structure Remote (H : Stop → Prop) (Q : Sys → Prop) : Prop where
  waiting : H .waiting
  panics : ∀ message, Stop.panic message ≠ commandSizePanic → H (.panic message)
  act : ∀ s script ds, Q s → Q { s with script := script, world := s.world.steps ds }
  fill : ∀ s b contents, Q s → Q { s with world := s.world.fill b contents }

/-- `Q` does not depend on host buffers other than those for staging. -/
structure Unstaged (H : Stop → Prop) (Q : Sys → Prop) : Prop extends Remote H Q where
  mapOther : ∀ s contents mapping, mapping.buffer.id.purpose ≠ .staging → Q s →
    Q { s with
      world := s.world.map mapping.buffer.id.purpose contents, mapped := mapping :: s.mapped }
  unmapped : ∀ s buffers, Q s → Q { s with unmapped := buffers }

/-- `Q` does not depend on the host buffers at all. -/
structure Aloof (H : Stop → Prop) (Q : Sys → Prop) : Prop extends Remote H Q where
  map : ∀ s purpose contents mapped, Q s →
    Q { s with world := s.world.map purpose contents, mapped := mapped }
  unmapped : ∀ s buffers, Q s → Q { s with unmapped := buffers }
  staging : ∀ s buffers capacity, Q s →
    Q { s with dev := { s.dev with staging := buffers, stagingCapacity := capacity } }
  taken : ∀ s taken unfinished, Q s → Q { s with taken := taken, unfinished := unfinished }

/-- Waiting for the commands of a transfer keeps `Q`. -/
structure Awaiting (H : Stop → Prop) (Q : Sys → Prop) : Prop extends Remote H Q where
  await : ∀ count timeout command, Triple Q (awaitDma count timeout command) (Always H Q)
  abandonAll : Triple Q abandonAll
    ⟨fun _ => Rested Q, fun _ _ => False, fun _ _ => False⟩

/-- The commands of a transfer keep `Q` too. -/
structure Streaming (H : Stop → Prop) (Q : Sys → Prop) : Prop extends Awaiting H Q where
  push : ∀ direction host len addr opts,
    Triple Q (pushDmaStaged direction host len addr opts) (Always H Q)

/-- Whole transfers keep `Q`. -/
structure Staging (H : Stop → Prop) (Q : Sys → Prop) : Prop extends Streaming H Q where
  h2dStaged : ∀ total dst opts produce,
    Triple (Rested Q) (h2dStaged total dst opts produce) (Calls H Q)
  memcpyD2hOpts : ∀ src total opts, Triple (Rested Q) (memcpyD2hOpts src total opts) (Calls H Q)

/-- Taking staging buffers and giving them back keeps `Q`. -/
structure Lending (H : Stop → Prop) (Q : Sys → Prop) : Prop extends Aloof H Q, Awaiting H Q

structure Blind (H : Stop → Prop) (Q : Sys → Prop) : Prop extends Lending H Q, Streaming H Q

variable {H : Stop → Prop} {Q P : Sys → Prop} {α β : Type}

/-- Stopping, seen from a call. -/
theorem rested_stops {m : M α} {R : α → Sys → Prop} {E : Error → Sys → Prop}
    (hm : Triple P m ⟨R, E, fun r s => H r ∧ Rested Q s⟩) :
    Triple P m ⟨R, E, fun r s => H r ∧ Q s⟩ :=
  hm.conseq (fun _ h => h) (fun _ _ h => h) (fun _ _ h => h) fun _ hs => ⟨hs.1, hs.2.1⟩

/-! ## Transport calls -/

namespace Remote
variable (h : Remote H Q)
include h

theorem rested : Remote H (Rested Q) where
  waiting := h.waiting
  panics := h.panics
  act s script ds hs := ⟨h.act s script ds hs.1, hs.2⟩
  fill s b contents hs := ⟨h.fill s b contents hs.1, hs.2⟩

theorem consult : Triple Q consult (Always H Q) := by
  intro s hs
  unfold EtSoc.consult
  split
  · exact ⟨h.waiting, hs⟩
  · exact h.act s _ _ hs

theorem tick : Triple Q tick (Always H Q) := .bind h.consult fun _ => .pure fun _ h => h

theorem panic {message : String} (hne : Stop.panic message ≠ commandSizePanic) :
    Triple Q (Prog.panic message : M α) (Always H Q) :=
  .panic fun _ hs => ⟨h.panics message hne, hs⟩

theorem u64Add_eq (a b : ℕ) :
    Triple Q (u64Add a b) ⟨fun c s => c = a + b ∧ Q s, fun _ => Q, fun r s => H r ∧ Q s⟩ :=
  .ite (fun _ => .pure fun _ h => ⟨rfl, h⟩) fun _ => .panic fun _ hs => ⟨h.panics _ (by decide), hs⟩

theorem u64Add (a b : ℕ) : Triple Q (u64Add a b) (Always H Q) :=
  (h.u64Add_eq a b).conseq (fun _ h => h) (fun _ _ h => h.2) (fun _ _ h => h) fun _ h => h

theorem liftOption {message : String} {o : Option α}
    (hne : Stop.panic message ≠ commandSizePanic) : Triple Q (liftOption message o) (Always H Q) := by
  cases o with
  | none => exact h.panic hne
  | some a => exact .pure fun _ h => h

theorem sqMaxMsgSize : Triple Q sqMaxMsgSize (Always H Q) := by
  refine .bind h.consult fun answer => ?_
  cases answer with
  | fail e => exact .throw fun _ h => h
  | _ => exact fun _ h => h

theorem writeHost (buffer : DmaHostBuffer) (len : ℕ) (contents : Memory → Memory) :
    Triple Q (writeHost buffer len contents) (Always H Q) :=
  .bind h.tick fun _ => .modify fun s hs => h.fill s _ _ hs

theorem readHost (buffer : DmaHostBuffer) (len : ℕ) : Triple Q (readHost buffer len) (Always H Q) :=
  .bind h.tick fun _ _ hs => hs

end Remote

namespace Unstaged
variable (h : Unstaged H Q)
include h

theorem rested : Unstaged H (Rested Q) where
  toRemote := h.toRemote.rested
  mapOther s contents mapping hne hs := ⟨h.mapOther s contents mapping hne hs.1, hs.2⟩
  unmapped s buffers hs := ⟨h.unmapped s buffers hs.1, hs.2⟩

theorem dmaHostBuffer {purpose : Purpose} (hne : purpose ≠ .staging) (size : ℕ) :
    Triple Q (dmaHostBuffer purpose size) (Always H Q) := by
  refine .bind h.consult fun answer => .read_bind fun serial => .pre ?_ fun _ h => h.1
  cases answer with
  | fail e => exact .throw fun _ h => h
  | _ =>
    exact .modify_bind (R := fun s => ∀ mapping : Mapping, mapping.buffer.id.purpose = purpose →
      Q { s with mapped := mapping :: s.mapped })
      (fun s hs mapping hp => by subst hp; exact h.mapOther s _ mapping hne hs)
      (.modify_bind (fun s hs => hs _ rfl) (.pure fun _ h => h))

theorem unmap (buffers : List DmaHostBuffer) : Triple Q (unmap buffers) (Always H Q) :=
  .modify fun s hs => h.unmapped s _ hs

end Unstaged

namespace Aloof
variable (h : Aloof H Q)
include h

theorem unstaged : Unstaged H Q where
  toRemote := h.toRemote
  mapOther s contents _ _ hs := h.map s _ contents _ hs
  unmapped := h.unmapped

theorem rested : Aloof H (Rested Q) where
  toRemote := h.toRemote.rested
  map s purpose contents mapped hs := ⟨h.map s purpose contents mapped hs.1, hs.2⟩
  unmapped s buffers hs := ⟨h.unmapped s buffers hs.1, hs.2⟩
  staging s buffers capacity hs := ⟨h.staging s buffers capacity hs.1, hs.2⟩
  taken s taken unfinished hs := ⟨h.taken s taken unfinished hs.1, hs.2⟩

theorem dmaHostBuffer (purpose : Purpose) (size : ℕ) :
    Triple Q (dmaHostBuffer purpose size) (Always H Q) := by
  refine .bind h.consult fun answer => .read_bind fun serial => .pre ?_ fun _ h => h.1
  cases answer with
  | fail e => exact .throw fun _ h => h
  | _ =>
    exact .modify_bind (R := fun s => ∀ m, Q { s with mapped := m })
      (fun s hs m => h.map s _ _ m hs) (.modify_bind (fun s hs => hs _) (.pure fun _ h => h))

theorem unmap (buffers : List DmaHostBuffer) : Triple Q (unmap buffers) (Always H Q) :=
  .modify fun s hs => h.unmapped s _ hs

theorem growStaging (required half n : ℕ) : ∀ index buffers,
    Triple Q (growStaging required half n index buffers) (Always H Q) := by
  induction n with
  | zero => exact fun _ _ => .pure fun _ h => h
  | succ n ih =>
    refine fun index buffers => .ite (fun _ => ih _ _) fun _ => .bind (h.unmap _) fun _ =>
      .bind (R := fun _ => Q) (.attempt (h.dmaHostBuffer _ _)) fun mapped => ?_
    cases mapped with
    | ok replacement => exact ih _ _
    | error e =>
      exact .modify_bind (R := Q) (fun s hs => h.staging s _ s.dev.stagingCapacity hs)
        (.throw fun _ h => h)

theorem takeStaging (total : ℕ) : Triple Q (takeStaging total) (Always H Q) :=
  .read_bind fun _ => .modify_bind (R := Q)
    (fun s hs => h.staging s [] s.dev.stagingCapacity hs.1) (.modify_bind (R := Q)
      (fun s hs => h.taken s s.taken _ hs) (.bind (h.growStaging _ _ _ _ _) fun _ =>
        .modify_bind (R := Q) (fun s hs => h.taken s _ s.unfinished hs) (.pure fun _ h => h)))

theorem setStagingCapacity (bytes : ℕ) :
    Triple (Rested Q) (setStagingCapacity bytes) (Calls H Q) := by
  have hr := h.rested
  have hmain : Triple (Rested Q) (EtSoc.setStagingCapacity bytes) (Always H (Rested Q)) :=
    .read_bind fun _ => .bind ((hr.unmap _).pre fun _ h => h.1) fun _ =>
      .modify fun s hs => hr.staging s _ _ hs
  exact hmain.conseq (fun _ h => h) (fun _ _ h => h) (fun _ _ h => h) fun _ hs => ⟨hs.1, hs.2.1⟩

end Aloof

/-! ## Transfers -/

/-- With no command pending, forgetting the pending ones changes nothing. -/
theorem setPending_idle {E : Error → Sys → Prop} {S : Stop → Sys → Prop}
    (hp : ∀ s, P s → s.pending = []) : Triple P (setPending []) ⟨fun _ => P, E, S⟩ :=
  .modify fun s hs => by
    rw [show { s with pending := [] } = s by rw [← hp s hs]]
    exact hs

theorem setPending_nil {E : Error → Sys → Prop} {S : Stop → Sys → Prop} :
    Triple (Rested Q) (setPending []) ⟨fun _ => Rested Q, E, S⟩ :=
  setPending_idle fun _ hs => hs.2

namespace Awaiting
variable (h : Awaiting H Q)
include h

theorem abandonPending :
    Triple Q abandonPending ⟨fun _ => Rested Q, fun _ _ => False, fun _ _ => False⟩ :=
  .read_bind fun _ => .bind (h.abandonAll.pre fun _ h => h.1) fun _ => .pure fun _ h => h

/-- The chunks are written, if the commands of each part of the target keep `Q`. -/
theorem h2dChunks {total dst : ℕ} {opts : DmaOptions}
    (hpush : ∀ host len addr, dst ≤ addr → (0 < len → addr + len ≤ dst + total) →
      Triple Q (pushDmaStaged .write host len addr opts) (Always H Q))
    (buffers : List DmaHostBuffer) (produce : Produce) (chunk : ℕ) (indices : List ℕ) :
    ∀ previousCommands, Triple Q
      (h2dChunks buffers total dst opts produce chunk indices previousCommands) (Always H Q) := by
  induction indices with
  | nil => exact fun _ => .pure fun _ h => h
  | cons index indices ih =>
    refine fun _ => .bind (h.liftOption (by decide)) fun _ => .bind (h.writeHost _ _ _) fun _ =>
      .bind (h.u64Add_eq _ _) fun addr => .and_pre fun haddr => ?_
    refine .bind (hpush _ _ addr (by omega) fun hpos => by omega) fun _ =>
      .bind (h.await _ _ _) fun _ => .read_bind fun _ => (ih _).pre fun _ h => h.1

theorem h2dPipeline {total dst : ℕ} {opts : DmaOptions}
    (hpush : ∀ host len addr, dst ≤ addr → (0 < len → addr + len ≤ dst + total) →
      Triple Q (pushDmaStaged .write host len addr opts) (Always H Q))
    (buffers : List DmaHostBuffer) (produce : Produce) :
    Triple Q (h2dPipeline buffers total dst opts produce) (Always H Q) :=
  .bind (h.h2dChunks hpush _ _ _ _ _) fun _ => h.await _ _ _

end Awaiting

namespace Streaming
variable (h : Streaming H Q)
include h

theorem h2dPipeline (buffers : List DmaHostBuffer) (total dst : ℕ) (opts : DmaOptions)
    (produce : Produce) : Triple Q (h2dPipeline buffers total dst opts produce) (Always H Q) :=
  h.toAwaiting.h2dPipeline (fun _ _ _ _ _ => h.push _ _ _ _ _) _ _

theorem readChunk (buffers : List DmaHostBuffer) (src total : ℕ) (opts : DmaOptions)
    (chunk index : ℕ) : Triple Q (readChunk buffers src total opts chunk index) (Always H Q) :=
  .bind (h.liftOption (by decide)) fun _ => .bind (h.u64Add _ _) fun _ => h.push _ _ _ _ _

theorem readNext (buffers : List DmaHostBuffer) (src total : ℕ) (opts : DmaOptions)
    (chunk index : ℕ) : Triple Q (readNext buffers src total opts chunk index) (Always H Q) :=
  .ite (fun _ => h.readChunk _ _ _ _ _ _) fun _ => .pure fun _ h => h

theorem d2hChunks (buffers : List DmaHostBuffer) (src total : ℕ) (opts : DmaOptions) (chunk : ℕ)
    (indices : List ℕ) :
    Triple Q (d2hChunks buffers src total opts chunk indices) (Always H Q) := by
  induction indices with
  | nil => exact .pure fun _ h => h
  | cons index indices ih =>
    exact .read_bind fun _ => .bind ((h.readNext _ _ _ _ _ _).pre fun _ h => h.1) fun _ =>
      .bind (h.await _ _ _) fun _ => .bind (h.liftOption (by decide)) fun _ =>
        .bind (h.readHost _ _) fun _ => .bind ih fun _ => .pure fun _ h => h

theorem d2hPipeline (buffers : List DmaHostBuffer) (src total : ℕ) (opts : DmaOptions) :
    Triple Q (d2hPipeline buffers src total opts) (Always H Q) :=
  .bind (h.readChunk _ _ _ _ _ _) fun _ => h.d2hChunks _ _ _ _ _ _

theorem pinnedTransfer {transfer : DmaHostBuffer → ℕ → M Unit} (buffer : PinnedBuffer)
    (ht : ∀ host len, Triple Q (transfer host len) (Always H Q)) :
    Triple (Rested Q) (pinnedTransfer buffer transfer) (Calls H Q) := by
  refine .read_bind fun dev => .pre (P := Rested Q) ?_ fun _ h => h.1
  refine .ite (fun _ => .pure fun _ h => h) fun _ => ?_
  split
  · exact .pure fun _ h => h
  refine .ite (fun _ => .pure fun _ h => h) fun _ => .bind setPending_nil fun _ => ?_
  refine .bind (R := fun _ => Q) (.attempt ((ht _ _).conseq (fun _ h => h.1) (fun _ _ h => h)
    (fun _ _ h => h) fun _ h => h)) fun result => .bind (h.abandonPending.conseq (fun _ h => h)
      (fun _ _ h => h) (fun _ _ h => h.elim) fun _ h => h.elim) fun uncollected => ?_
  exact .ite (fun _ => .pure fun _ h => h) fun _ => .pure fun _ h => h

theorem transferPinned (direction : Direction) (addr : ℕ) (opts : DmaOptions) (command : String)
    (host : DmaHostBuffer) (len : ℕ) :
    Triple Q (transferPinned direction addr opts command host len) (Always H Q) :=
  .bind (h.push _ _ _ _ _) fun _ => .read_bind fun _ => (h.await _ _ _).pre fun _ h => h.1

theorem memcpyH2dPinnedOpts (src : PinnedBuffer) (dst : ℕ) (opts : DmaOptions) :
    Triple (Rested Q) (memcpyH2dPinnedOpts src dst opts) (Calls H Q) :=
  h.pinnedTransfer _ fun _ _ => h.transferPinned _ _ _ _ _ _

theorem memcpyD2hPinnedOpts (src : ℕ) (dst : PinnedBuffer) (opts : DmaOptions) :
    Triple (Rested Q) (memcpyD2hPinnedOpts src dst opts) (Calls H Q) :=
  h.pinnedTransfer _ fun _ _ => h.transferPinned _ _ _ _ _ _

end Streaming

namespace Lending
variable (h : Lending H Q)
include h

theorem restoreStaging (buffers : List DmaHostBuffer) (result : Except Error Unit) :
    Triple Q (restoreStaging buffers result) (Calls H Q) := by
  refine .modify_bind (R := Q) (fun s hs => h.taken s s.taken _ hs) ?_
  refine .bind (h.abandonPending.conseq (fun _ h => h) (fun _ _ h => h) (fun _ _ h => h.elim)
    fun _ h => h.elim) fun uncollected => .ite (fun _ => .pure fun _ h => h) fun _ => .read_bind
      fun dev => .bind (R := fun _ => Rested Q) (.modify fun s hs => ⟨h.unmapped s _ hs.1.1, hs.1.2⟩)
        fun _ => .modify fun s hs => ⟨h.staging s buffers s.dev.stagingCapacity hs.1, hs.2⟩

theorem staged {total : ℕ} {transfer : List DmaHostBuffer → M α}
    (ht : ∀ buffers, Triple Q (transfer buffers) (Always H Q)) :
    Triple (Rested Q) (staged total transfer) (Calls H Q) := by
  refine .bind setPending_nil fun _ => .bind ((h.toAloof.rested.takeStaging total).conseq
    (fun _ h => h) (fun _ _ h => h) (fun _ _ h => h) fun _ hs => ⟨hs.1, hs.2.1⟩) fun buffers => ?_
  refine .bind (R := fun _ => Q) (.attempt ((ht buffers).conseq (fun _ h => h.1) (fun _ _ h => h)
    (fun _ _ h => h) fun _ h => h)) fun result => ?_
  exact .bind (h.restoreStaging _ _) fun _ => .ofExcept (fun _ _ _ h => h) fun _ _ _ h => h

/-- Bytes are written through the staging buffers, if the commands for them keep `Q`. -/
theorem h2dStaged {total dst : ℕ} {opts : DmaOptions}
    (hpush : ∀ host len addr, dst ≤ addr → (0 < len → addr + len ≤ dst + total) →
      Triple Q (pushDmaStaged .write host len addr opts) (Always H Q)) (produce : Produce) :
    Triple (Rested Q) (h2dStaged total dst opts produce) (Calls H Q) :=
  .ite (fun _ => .pure fun _ h => h) fun _ => h.staged fun _ => h.toAwaiting.h2dPipeline hpush _ _

end Lending

theorem Blind.transfers (h : Blind H Q) : Staging H Q where
  toStreaming := h.toStreaming
  h2dStaged _ _ _ _ := h.toLending.h2dStaged (fun _ _ _ _ _ => h.push _ _ _ _ _) _
  memcpyD2hOpts _ _ _ := .ite (fun _ => .pure fun _ h => h) fun _ => h.toLending.staged fun _ =>
    h.d2hPipeline _ _ _ _

/-! ## Images -/

namespace Remote
variable (h : Remote H Q)
include h

/-- A tail is cleared, if each upload into it keeps `Q`. -/
theorem clearTail {addr tail : ℕ} (hupload : ∀ src dst, addr ≤ dst →
      dst + src.length ≤ addr + tail → Triple (Rested Q) (memcpyH2d src dst) (Calls H Q))
    (n : ℕ) : ∀ done, Triple (Rested Q) (clearTail addr tail n done) (Calls H Q) := by
  induction n with
  | zero => exact fun _ => .pure fun _ h => h
  | succ n ih =>
    intro done
    refine .ite (fun hlt => ?_) fun _ => .pure fun _ h => h
    refine .bind (rested_stops (h.rested.u64Add_eq _ _)) fun dst => .and_pre fun hdst => ?_
    refine .bind (hupload _ dst (by omega) ?_) fun _ => ih _
    rw [List.length_replicate]
    omega

/-- The segments are loaded, if each upload into one keeps `Q`. -/
theorem loadSegments (image : List UInt8) {segs : List Elf.LoadSegment}
    (hupload : ∀ seg ∈ segs, ∀ src dst, seg.vaddr ≤ dst →
      dst + src.length ≤ seg.vaddr + max seg.fileSize seg.memSize →
      Triple (Rested Q) (memcpyH2d src dst) (Calls H Q)) :
    Triple (Rested Q) (loadSegments image segs) (Calls H Q) := by
  induction segs with
  | nil => exact .pure fun _ h => h
  | cons seg segs ih =>
    have hseg := hupload seg List.mem_cons_self
    refine .bind (R := fun _ => Rested Q) (.ite (fun _ => hseg _ _ le_rfl ?_) fun _ =>
      .pure fun _ h => h) fun _ => .bind (R := fun _ => Rested Q) ?_ fun _ =>
        ih fun seg' hseg' => hupload seg' (List.mem_cons_of_mem _ hseg')
    · rw [List.length_take]
      omega
    · refine .ite (fun _ => .bind (rested_stops (h.rested.u64Add_eq _ _)) fun addr =>
        .and_pre fun haddr => h.clearTail (fun src dst hlo hhi => ?_) _ _) fun _ => .pure fun _ h => h
      exact hseg src dst (by omega) (by omega)

end Remote

namespace Staging
variable (h : Staging H Q)
include h

theorem memcpyH2dOpts (src : List UInt8) (dst : ℕ) (opts : DmaOptions) :
    Triple (Rested Q) (memcpyH2dOpts src dst opts) (Calls H Q) :=
  h.h2dStaged _ _ _ _

theorem fillRegion (region : DeviceRegion) (value : UInt8) :
    Triple (Rested Q) (fillRegion region value) (Calls H Q) :=
  h.h2dStaged _ _ _ _

theorem loadSegments (image : List UInt8) (segs : List Elf.LoadSegment) :
    Triple (Rested Q) (loadSegments image segs) (Calls H Q) :=
  h.toRemote.loadSegments image fun _ _ src dst _ _ => h.memcpyH2dOpts src dst .default

end Staging

end EtSoc

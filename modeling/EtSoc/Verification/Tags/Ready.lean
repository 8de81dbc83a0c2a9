import EtSoc.Model.Dma
import EtSoc.Verification.Tags.Steps

/-! # Between two operations

What the queue operations keep: the tag invariant, any property of the world that the
device and the popping of responses keep, and every field that is not theirs to change. -/

namespace EtSoc

open Function Program

/-- A property that outlasts any wait. -/
structure Patient (P : World → Prop) : Prop where
  step : ∀ w d, w.Sound → P w → P (w.step d)
  pop : ∀ w c rsp, w.Sound → w.answer c = some rsp → P w → P (w.pop c)

namespace Patient
variable {P Q : World → Prop}

theorem and (hP : Patient P) (hQ : Patient Q) : Patient fun w => P w ∧ Q w :=
  ⟨fun w d hs h => ⟨hP.step w d hs h.1, hQ.step w d hs h.2⟩,
    fun w c rsp hs hr h => ⟨hP.pop w c rsp hs hr h.1, hQ.pop w c rsp hs hr h.2⟩⟩

theorem true : Patient fun _ => True := ⟨fun _ _ _ _ => trivial, fun _ _ _ _ _ _ => trivial⟩

theorem accepted (commands : List Accepted) : Patient fun w => w.accepted = commands :=
  ⟨fun w d _ h => (w.step_accepted d).trans h, fun _ _ _ _ _ h => h⟩

theorem steps (hP : Patient P) {w : World} (hs : w.Sound) (h : P w) (ds : List World.DevStep) :
    (w.steps ds).Sound ∧ P (w.steps ds) := by
  induction ds generalizing w with
  | nil => exact ⟨hs, h⟩
  | cons d ds ih => exact ih (hs.step d) (hP.step w d hs h)

end Patient

/-- The fields that are not for the queue operations to change. -/
structure Frame where
  address : ℕ
  staging : List DmaHostBuffer
  stagingCapacity : ℕ
  argsSlots : List ArgsSlot
  dram : DramInfo
  next : ℕ
  kernelEnd : ℕ
  defaultTimeout : Duration
  pending : List Tag
  cut : List Tag
  heap : List HeapEvent
  unmapped : List BufId

def Sys.frame (s : Sys) : Frame where
  address := s.dev.address
  staging := s.dev.staging
  stagingCapacity := s.dev.stagingCapacity
  argsSlots := s.dev.argsSlots
  dram := s.dev.dram
  next := s.dev.next
  kernelEnd := s.dev.kernelEnd
  defaultTimeout := s.dev.defaultTimeout
  pending := s.pending
  cut := s.cut
  heap := s.heap
  unmapped := s.unmapped

/-- The record of the queues is in order, and true of the world. -/
structure InOrder (s : Sys) : Prop where
  pushed : ∀ t c, .pushed t c ∈ s.log → ∃ a, s.world.accepted[c]? = some a ∧ a.cmd.tagId = t
  popped : ∀ c rsp, Popped s.log c rsp → s.world.answer c = some rsp.bytes
  logOk : LogOk (s.world.machine.wellFormed = true) s.log
  quiet : s.world.machine.wellFormed = true → Quiet s.log

theorem TagInv.inOrder {held fresh : List Tag} {s : Sys} (h : TagInv held fresh s.books) :
    InOrder s :=
  ⟨h.pushed, fun c rsp hc => (h.popped c rsp hc).2, h.logOk, h.quiet⟩

structure Ready (P : World → Prop) (fr : Frame) (held fresh : List Tag) (s : Sys) : Prop where
  tags : TagInv held fresh s.books
  world : P s.world
  frame : s.frame = fr

/-- However an operation ends, the record is in order. -/
def Ends {α : Type} (ok : α → Sys → Prop) (err : Error → Sys → Prop) : Post Sys Error α :=
  ⟨ok, err, fun _ => InOrder⟩

variable {P : World → Prop} {fr : Frame} {held fresh : List Tag}

theorem Ready.inOrder {s : Sys} (h : Ready P fr held fresh s) : InOrder s := h.tags.inOrder

theorem Ready.perm {held' : List Tag} {s : Sys} (h : Ready P fr held fresh s)
    (hp : held.Perm held') : Ready P fr held' fresh s :=
  ⟨h.tags.perm hp, h.world, h.frame⟩

theorem Ready.mono {Q : World → Prop} {s : Sys} (h : Ready P fr held fresh s)
    (hPQ : ∀ w, P w → Q w) : Ready Q fr held fresh s :=
  ⟨h.tags, hPQ _ h.world, h.frame⟩

/-! ## Transport calls -/

variable {E : Error → Sys → Prop}

theorem consult_spec (hP : Patient P) :
    Triple (Ready P fr held fresh) consult (Ends (fun _ => Ready P fr held fresh) E) := by
  intro s hs
  unfold consult
  split
  · exact hs.inOrder
  · rename_i choice script _
    have hstep : ∀ (ds : List World.DevStep) (b : Books), TagInv held fresh b →
        TagInv held fresh { b with world := b.world.steps ds } := fun ds => by
      induction ds with
      | nil => exact fun b hb => hb
      | cons d ds ih => exact fun b hb => ih _ (hb.step d)
    exact ⟨hstep choice.steps s.books hs.tags,
      (hP.steps hs.tags.sound hs.world choice.steps).2, hs.frame⟩

/-- A failed transport call may have left a command in flight. -/
theorem inFlight_toError (e : TransportError) : dmaMayBeInFlight e.toError = true := by
  cases e <;> rfl

theorem decision_spec (answer : Answer) {R : Sys → Prop} :
    Triple R (decision answer)
      (Ends (fun _ => R) fun e s => R s ∧ dmaMayBeInFlight e = true) := by
  intro s hs
  cases answer <;> first | exact ⟨hs, inFlight_toError _⟩ | exact hs

theorem tick_spec (hP : Patient P) :
    Triple (Ready P fr held fresh) tick (Ends (fun _ => Ready P fr held fresh) E) :=
  .bind (consult_spec hP) fun _ => .pure fun _ h => h

theorem waitReady_spec (hP : Patient P) :
    Triple (Ready P fr held fresh) waitReady
      (Ends (fun _ => Ready P fr held fresh)
        fun e s => Ready P fr held fresh s ∧ dmaMayBeInFlight e = true) :=
  .bind (consult_spec hP) fun answer => decision_spec answer

theorem expired_spec (hP : Patient P) :
    Triple (Ready P fr held fresh) expired (Ends (fun _ => Ready P fr held fresh) E) := by
  refine .bind (consult_spec hP) fun answer => ?_
  cases answer <;> exact .pure fun _ h => h

end EtSoc

import EtSoc.Verification.Session.Blind

/-! # Properties that tags do not matter to -/

namespace EtSoc

open Function Program

/-- `Q` does not depend on the tags, nor on the record of the queues, and outlasts the
commands that satisfy `B`. -/
structure Numb (H : Stop → Prop) (B : Command → Prop) (Q : Sys → Prop) : Prop
    extends Remote H Q where
  tags : ∀ s tag outstanding abandoned stash, Q s → Q { s with dev := { s.dev with
    tag := tag, outstanding := outstanding, abandoned := abandoned, stash := stash } }
  log : ∀ s e, Q s → Q { s with log := e :: s.log }
  cut : ∀ s tags, Q s → Q { s with cut := tags ++ s.cut }
  pop : ∀ s c, Q s → Q { s with world := s.world.pop c }
  offer : ∀ s cmd, B cmd → Q s → Q { s with offered := cmd :: s.offered }
  accept : ∀ s sqIndex descFlags cmd, B cmd → Q s →
    Q { s with world := s.world.accept sqIndex descFlags cmd }
  peak : ∀ s peak, s.peak ≤ peak → Q s → Q { s with peak := peak }

structure Deaf (H : Stop → Prop) (B : Command → Prop) (Q : Sys → Prop) : Prop
    extends Aloof H Q, Numb H B Q

variable {H : Stop → Prop} {Q P : Sys → Prop} {α β : Type}

namespace Remote
variable (h : Remote H Q)
include h

omit h in
theorem decision (answer : Answer) : Triple Q (decision answer) (Always H Q) := by
  cases answer <;> exact fun _ hs => hs

theorem waitReady : Triple Q waitReady (Always H Q) := .bind h.consult fun _ => decision _

theorem expired : Triple Q expired (Always H Q) := by
  refine .bind h.consult fun answer => ?_
  cases answer <;> exact .pure fun _ h => h

/-- The commands of a chunk keep `Q`, if each list command does. -/
theorem pushStagedFrom {direction : Direction} {host : DmaHostBuffer} {len addr : ℕ}
    {opts : DmaOptions} {maxElem maxNodes : ℕ}
    (hlist : ∀ nodes, Triple Q (EtSoc.pushList direction opts.sqIndex nodes) (Always H Q)) (n : ℕ) :
    ∀ offset nodes, Triple Q
      (EtSoc.pushStagedFrom direction host len addr opts maxElem maxNodes n offset nodes)
      (Always H Q) := by
  induction n with
  | zero => exact fun _ _ => .pure fun _ h => h
  | succ n ih =>
    refine fun offset nodes => .ite (fun _ => ?_) fun _ => .pure fun _ h => h
    refine .bind (R := fun _ => Q) (.ite (fun _ => .pure fun _ h => h) fun _ => h.u64Add _ _)
      fun phys => .bind (h.u64Add _ _) fun device => .ite (fun _ => ?_) fun _ => ih _ _
    exact .bind (hlist _) fun _ => ih _ _

theorem maxListNodes (hmax : ∀ s n, Q s → Q { s with dev := { s.dev with maxListNodes := n } }) :
    Triple Q maxListNodes (Always H Q) := by
  refine .read_bind fun dev => .pre (P := Q) ?_ fun _ h => h.1
  split
  · exact .pure fun _ h => h
  · exact .bind h.sqMaxMsgSize fun msg => .modify_bind (R := Q) (fun s hs => hmax s _ hs)
      (.pure fun _ h => h)

end Remote

/-- `Q` does not depend on the pending tags. -/
def Unpending (Q : Sys → Prop) : Prop := ∀ s tags, Q s → Q { s with pending := tags }

namespace Numb
variable {B : Command → Prop} (h : Numb H B Q) (hp : Unpending Q)
include h

theorem rested : Numb H B (Rested Q) where
  toRemote := h.toRemote.rested
  tags s tag outstanding abandoned stash hs := ⟨h.tags s tag outstanding abandoned stash hs.1, hs.2⟩
  log s e hs := ⟨h.log s e hs.1, hs.2⟩
  cut s tags hs := ⟨h.cut s tags hs.1, hs.2⟩
  pop s c hs := ⟨h.pop s c hs.1, hs.2⟩
  offer s cmd hB hs := ⟨h.offer s cmd hB hs.1, hs.2⟩
  accept s sqIndex descFlags cmd hB hs := ⟨h.accept s sqIndex descFlags cmd hB hs.1, hs.2⟩
  peak s peak hle hs := ⟨h.peak s peak hle hs.1, hs.2⟩

theorem nextTag : Triple Q nextTag (Always H Q) := by
  refine .read_bind fun dev => ?_
  split
  · exact .modify_bind (R := Q) (fun s hs => h.tags s _ _ s.dev.abandoned s.dev.stash hs.1)
      (.pure fun _ h => h)
  · exact .throw fun _ h => h.1

theorem release (tag : Tag) : Triple Q (release tag) (Always H Q) :=
  .modify fun s hs => h.tags s s.dev.tag _ s.dev.abandoned s.dev.stash hs

theorem pushSq {sqIndex : UInt16} {cmd : Command} {descFlags : UInt8} (hB : B cmd) :
    Triple Q (pushSq sqIndex cmd descFlags) (Always H Q) := by
  refine .modify_bind (fun s hs => h.offer s cmd hB hs) (.bind h.consult fun answer =>
    .bind (Remote.decision answer) fun taken => ?_)
  cases taken with
  | false => exact .pure fun _ h => h
  | true =>
    exact .read_bind fun c => .modify_bind (R := Q) (fun s hs => h.accept s _ _ _ hB hs.1)
      (.modify_bind (R := Q) (fun s hs => h.log s _ hs)
        (.modify_bind (R := Q) (fun s hs => h.peak s _ (Nat.le_max_left ..) hs) (.pure fun _ h => h)))

theorem pushLoop {sqIndex : UInt16} {cmd : Command} {descFlags : UInt8} (hB : B cmd)
    (limit : Duration) (n : ℕ) : Triple Q (pushLoop sqIndex cmd descFlags limit n) (Always H Q) := by
  induction n with
  | zero => exact .block fun _ hs => ⟨h.waiting, hs⟩
  | succ n ih =>
    refine .bind (h.pushSq hB) fun taken => ?_
    cases taken with
    | true => exact .pure fun _ h => h
    | false =>
      exact .bind h.toRemote.expired fun late => .ite (fun _ => .throw fun _ h => h) fun _ =>
        .bind h.toRemote.waitReady fun _ => ih

theorem pushCmd {sqIndex : UInt16} {cmd : Command} {descFlags : UInt8} {tag : Tag} (hB : B cmd) :
    Triple Q (pushCmd sqIndex cmd descFlags tag) (Always H Q) := by
  refine .bind (R := fun _ => Q) (.attempt (.read_bind fun dev => .read_bind fun n =>
    (h.pushLoop hB dev.defaultTimeout n).pre fun _ h => h.1.1)) fun pushed => ?_
  cases pushed with
  | ok u => exact .pure fun _ h => h
  | error e => exact .bind (h.release tag) fun _ => .throw fun _ h => h

theorem popCq : Triple Q popCq (Always H Q) := by
  refine .bind h.consult fun answer => .read_bind fun w => .pre (P := Q) ?_ fun _ h => h.1
  cases answer with
  | fail e => exact .throw fun _ h => h
  | response c cqIndex =>
    dsimp only
    split
    · exact .ite (fun _ => .pure fun _ h => h) fun _ => .modify_bind (R := Q)
        (fun s hs => h.pop s c hs) (.modify_bind (R := Q) (fun s hs => h.log s _ hs)
          (.pure fun _ h => h))
    · exact .pure fun _ h => h
  | forged bytes cqIndex =>
    exact .ite (fun _ => .pure fun _ h => h) fun _ => .modify_bind (R := Q)
      (fun s hs => h.log s _ hs) (.pure fun _ h => h)
  | _ => exact .pure fun _ h => h

theorem park (tag : Tag) (rsp : PoppedResponse) : Triple Q (park tag rsp) (Always H Q) :=
  .read_bind fun _ => .ite (fun _ => .modify fun s hs => h.tags s s.dev.tag _ _ s.dev.stash hs.1)
    fun _ => .ite (fun _ => .modify fun s hs =>
      h.tags s s.dev.tag s.dev.outstanding s.dev.abandoned _ hs.1) fun _ => .pure fun _ hs => hs.1

theorem collectLoop (tag : Tag) (timeout : Option Duration) (operation : String) (n : ℕ) :
    Triple Q (collectLoop tag timeout operation n) (Always H Q) := by
  induction n with
  | zero => exact .block fun _ hs => ⟨h.waiting, hs⟩
  | succ n ih =>
    have hwait : Triple Q (do
        let _ ← EtSoc.waitReady
        EtSoc.collectLoop tag timeout operation n) (Always H Q) := .bind h.toRemote.waitReady fun _ => ih
    refine .bind h.popCq fun popped => ?_
    split
    · split
      · exact .ite (fun _ => .pure fun _ h => h) fun _ => .bind (h.park _ _) fun _ => ih
      · exact .throw fun _ h => h
    · split
      · exact .bind h.toRemote.expired fun _ => .ite (fun _ => .throw fun _ h => h) fun _ => hwait
      · exact hwait

theorem unstash (tag : Tag) : Triple Q (unstash tag) (Always H Q) :=
  .modify fun s hs => h.tags s s.dev.tag s.dev.outstanding s.dev.abandoned _ hs

theorem collectResponse (tag : Tag) (timeout : Option Duration) (operation : String) :
    Triple Q (collectResponse tag timeout operation) (Always H Q) := by
  have hinner : Triple Q (collectResponseInner tag timeout operation) (Always H Q) := by
    refine .read_bind fun dev => .pre (P := Q) ?_ fun _ h => h.1
    split
    · exact .bind (h.unstash tag) fun _ => .pure fun _ h => h
    · exact .read_bind fun _ => (h.collectLoop _ _ _ _).pre fun _ h => h.1
  refine .modify_bind (R := Q) (fun s hs => h.log s _ hs)
    (.bind (R := fun _ => Q) (.attempt hinner) fun collected => ?_)
  cases collected with
  | ok rsp =>
    exact .bind (h.release tag) fun _ => .modify_bind (R := Q) (fun s hs => h.log s _ hs)
      (.pure fun _ h => h)
  | error e =>
    exact .modify_bind (R := Q) (fun s hs => h.tags s s.dev.tag s.dev.outstanding _ s.dev.stash hs)
      (.modify_bind (R := Q) (fun s hs => h.log s _ hs) (.throw fun _ h => h))

theorem abandon (tag : Tag) {E : Error → Sys → Prop} {S : Stop → Sys → Prop} :
    Triple Q (abandon tag) ⟨fun _ => Q, E, S⟩ := by
  refine .read_bind fun dev => .pre (P := Q) ?_ fun _ h => h.1
  split
  · exact .modify_bind (R := Q) (fun s hs => h.tags s s.dev.tag s.dev.outstanding s.dev.abandoned _ hs)
      (.modify_bind (R := Q) (fun s hs => h.tags s s.dev.tag _ s.dev.abandoned s.dev.stash hs)
        (.modify fun s hs => h.log s _ hs))
  · exact .modify_bind (R := Q) (fun s hs => h.tags s s.dev.tag s.dev.outstanding _ s.dev.stash hs)
      (.modify fun s hs => h.log s _ hs)

theorem abandonEach (tags : List Tag) {E : Error → Sys → Prop} {S : Stop → Sys → Prop} :
    Triple Q (abandonEach tags) ⟨fun _ => Q, E, S⟩ := by
  induction tags with
  | nil => exact .pure fun _ h => h
  | cons tag tags ih => exact .bind (h.abandon tag) fun _ => ih

include hp in
theorem abandonAll {E : Error → Sys → Prop} {S : Stop → Sys → Prop} :
    Triple Q abandonAll ⟨fun _ => Rested Q, E, S⟩ :=
  .read_bind fun tags => .modify_bind (R := Rested Q) (fun s hs => ⟨hp s _ hs.1, rfl⟩)
    (h.rested.abandonEach tags)

theorem awaitTag (timeout : Option Duration) (command : String) (tag : Tag) :
    Triple Q (awaitTag timeout command tag) (Always H Q) := by
  refine .bind (h.collectResponse _ _ _) fun rsp => ?_
  split
  · exact .throw fun _ h => h
  · exact .ite (fun _ => .throw fun _ h => h) fun _ => .pure fun _ h => h

theorem awaitEach (timeout : Option Duration) (command : String) (tags : List Tag) :
    Triple Q (awaitEach timeout command tags) (Always H Q) := by
  induction tags with
  | nil => exact .pure fun _ h => h
  | cons tag tags ih =>
    refine .bind (R := fun _ => Q) (.attempt (h.awaitTag _ _ _)) fun awaited => ?_
    cases awaited with
    | ok u => exact ih
    | error e => exact .modify_bind (R := Q) (fun s hs => h.cut s _ hs) (.throw fun _ h => h)

section
include hp

theorem awaitDma (count : ℕ) (timeout : Option Duration) (command : String) :
    Triple Q (awaitDma count timeout command) (Always H Q) :=
  .read_bind fun _ => .ite (fun _ => (h.panic (by decide)).pre fun _ h => h.1) fun _ =>
    .modify_bind (R := Q) (fun s hs => hp s _ hs.1) (h.awaitEach _ _ _)

/-- Transfers keep what tags do not matter to, if their commands do. -/
theorem streaming (hpush : ∀ direction host len addr opts,
      Triple Q (pushDmaStaged direction host len addr opts) (Always H Q)) : Streaming H Q where
  toRemote := h.toRemote
  push := hpush
  await := h.awaitDma hp
  abandonAll := h.abandonAll hp

/-! ## The commands of a transfer -/

omit h in
theorem setPending (tags : List Tag) : Triple Q (setPending tags) (Always H Q) :=
  .modify fun s hs => hp s tags hs

theorem pushList {direction : Direction} {sqIndex : UInt16} {nodes : List DmaNode}
    (hpanic : (∀ tag, buildDmaList direction tag CmdFlags.barrier nodes ≠ none) ∨ H commandSizePanic)
    (hB : ∀ tag cmd, buildDmaList direction tag CmdFlags.barrier nodes = some cmd → B cmd) :
    Triple Q (pushList direction sqIndex nodes) (Always H Q) := by
  refine .bind h.nextTag fun tag => ?_
  refine .bind (R := fun cmd s => B cmd ∧ Q s) ?_ fun cmd => .and_pre fun hcmd =>
    .bind (h.pushCmd hcmd) fun _ => .read_bind fun _ => (setPending hp _).pre fun _ h => h.1
  cases hbuild : buildDmaList direction tag CmdFlags.barrier nodes with
  | none => exact .panic fun s hs => ⟨hpanic.resolve_left fun hne => hne tag hbuild, hs⟩
  | some cmd => exact .pure fun s hs => ⟨hB tag cmd hbuild, hs⟩

end

include hp in
/-- Where the size of a command does not matter, a transfer keeps `Q`. -/
theorem pushDmaStaged (hmax : ∀ s n, Q s → Q { s with dev := { s.dev with maxListNodes := n } })
    (hpanic : H commandSizePanic) (hB : ∀ cmd, B cmd) (direction : Direction) (host : DmaHostBuffer)
    (len addr : ℕ) (opts : DmaOptions) :
    Triple Q (pushDmaStaged direction host len addr opts) (Always H Q) :=
  .read_bind fun _ => .bind ((h.toRemote.maxListNodes hmax).pre fun _ h => h.1) fun _ =>
    h.toRemote.pushStagedFrom (fun _ => h.pushList hp (.inr hpanic) fun _ _ _ => hB _) _ _ _

end Numb

namespace Deaf
variable {B : Command → Prop} (h : Deaf H B Q)
include h

/-- Properties that are deaf to tags are blind too, if the commands of a transfer keep them. -/
theorem toBlind (hp : Unpending Q) (hpush : ∀ direction host len addr opts,
      Triple Q (EtSoc.pushDmaStaged direction host len addr opts) (Always H Q)) : Blind H Q where
  toAloof := h.toAloof
  push := hpush
  await := h.awaitDma hp
  abandonAll := h.abandonAll hp

end Deaf

end EtSoc

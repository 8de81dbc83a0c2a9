import EtSoc.Verification.Session.Heap
import EtSoc.Verification.Session.Rests

/-! # Calls that push no command -/

namespace EtSoc

open Function Program

variable {E : Env} {clean : Prop} {X : World → Prop} {acc : List Accepted} {fr : Frame}
  {handles : List Handle}
  {pinned : List DmaHostBuffer} {F : Error → Sys → Prop}

/-! ## Allocation -/

/-- The allocator may have handed out a region. -/
inductive Allots (fr : Frame) : Frame → Prop where
  | none : Allots fr fr
  | some {size region} (h : Allocates fr size region) : Allots fr (fr.allocated region)

theorem Frame.alike_allocated (fr : Frame) (region : DeviceRegion) :
    fr.Alike (fr.allocated region) [] :=
  ⟨rfl, rfl, rfl, rfl, fun _ h => h, rfl, by simp⟩

theorem Allots.alike {fr' : Frame} (h : Allots fr fr') : fr.Alike fr' [] := by
  cases h with
  | none => exact ⟨rfl, rfl, rfl, rfl, fun _ h => h, rfl, by simp⟩
  | some h => exact fr.alike_allocated _

theorem alloc_rests {size : ℕ} :
    Triple (Rests clean X acc fr handles pinned) (alloc size)
      (Ends (fun region s => Allocates fr size region ∧
          Rests clean X acc (fr.allocated region) handles pinned s)
        fun _ => Rests clean X acc fr handles pinned) :=
  alloc_spec.conseq (fun _ h => h)
    (fun _ _ ⟨hregion, hs⟩ => ⟨hregion, .alike (fr.alike_allocated _) (by simp) hs⟩)
    (fun _ _ h => h) fun _ h => h

/-- What a call of the allocator may have done. -/
def Allotted (clean : Prop) (X : World → Prop) (acc : List Accepted) (fr : Frame) (handles : List Handle)
    (pinned : List DmaHostBuffer) (s : Sys) : Prop :=
  ∃ fr', Allots fr fr' ∧ Rests clean X acc fr' handles pinned s

theorem Allotted.none {s : Sys} (h : Rests clean X acc fr handles pinned s) :
    Allotted clean X acc fr handles pinned s :=
  ⟨fr, .none, h⟩

theorem alloc_allotted {size : ℕ} :
    Triple (Rests clean X acc fr handles pinned) (alloc size)
      (Ends (fun _ => Allotted clean X acc fr handles pinned)
        fun _ => Allotted clean X acc fr handles pinned) :=
  alloc_rests.conseq (fun _ h => h) (fun _ _ ⟨hregion, hs⟩ => ⟨_, .some hregion, hs⟩)
    (fun _ _ hs => .none hs) fun _ h => h

theorem limitUnless_spec {P : Sys → Prop} {p : Prop} [Decidable p] {message : String} :
    Triple P (limitUnless p message) (Ends (fun _ => P) fun _ => P) :=
  .ite (fun _ => .pure fun _ h => h) fun _ => .throw fun _ h => h

theorem byteLenOf_spec {P : Sys → Prop} {elemSize n : ℕ} :
    Triple P (byteLenOf elemSize n) (Ends (fun _ => P) fun _ => P) :=
  .bind limitUnless_spec fun _ => .pure fun _ h => h

theorem allocArray_rests {elemSize n : ℕ} :
    Triple (Rests clean X acc fr handles pinned) (allocArray elemSize n)
      (Ends (fun region s => Allots fr (fr.allocated region) ∧
          Rests clean X acc (fr.allocated region) handles pinned s)
        fun _ => Rests clean X acc fr handles pinned) :=
  .bind byteLenOf_spec fun _ => alloc_rests.conseq (fun _ h => h)
    (fun _ _ ⟨hregion, hs⟩ => ⟨.some hregion, hs⟩) (fun _ _ h => h) fun _ h => h

theorem allocArray_allotted {elemSize n : ℕ} :
    Triple (Rests clean X acc fr handles pinned) (allocArray elemSize n)
      (Ends (fun _ => Allotted clean X acc fr handles pinned)
        fun _ => Allotted clean X acc fr handles pinned) :=
  allocArray_rests.conseq (fun _ h => h) (fun _ _ hs => ⟨_, hs⟩) (fun _ _ hs => .none hs)
    fun _ h => h

theorem allocPadded_allotted {elemSize n : ℕ} :
    Triple (Rests clean X acc fr handles pinned) (allocPadded elemSize n)
      (Ends (fun _ => Allotted clean X acc fr handles pinned)
        fun _ => Allotted clean X acc fr handles pinned) :=
  .ite (fun _ => .panic fun _ h => h.inOrder) fun _ =>
    .bind (byteLenOf_spec.conseq (fun _ h => h) (fun _ _ h => h) (fun _ _ h => .none h)
      fun _ h => h) fun _ => alloc_allotted

theorem allocTensorMatrix_allotted {rows cols : ℕ} :
    Triple (Rests clean X acc fr handles pinned) (allocTensorMatrix rows cols)
      (Ends (fun _ => Allotted clean X acc fr handles pinned)
        fun _ => Allotted clean X acc fr handles pinned) := by
  have hlimit : ∀ (p : Prop) [Decidable p] message,
      Triple (Rests clean X acc fr handles pinned) (limitUnless p message)
        (Ends (fun _ => Rests clean X acc fr handles pinned)
          fun _ => Allotted clean X acc fr handles pinned) := fun p _ message =>
    limitUnless_spec.conseq (fun _ h => h) (fun _ _ h => h) (fun _ _ h => .none h) fun _ h => h
  exact .bind (hlimit _ _) fun _ => .bind (hlimit _ _) fun _ => .bind (hlimit _ _) fun _ =>
    .bind alloc_allotted fun _ => .bind limitUnless_spec fun _ => .pure fun _ h => h

/-! ## Marks -/

theorem allocMark_rests :
    Triple (Rests clean X acc fr handles pinned) allocMark
      (Ends (fun mark s => mark = ⟨fr.next⟩ ∧
        Rests clean X acc { fr with heap := .marked :: fr.heap } handles pinned s) F) := by
  refine .read_bind fun dev s hs => ?_
  obtain ⟨hs, rfl⟩ := hs
  have halike : fr.Alike { fr with heap := .marked :: fr.heap } [] :=
    ⟨rfl, rfl, rfl, rfl, fun _ h => h, rfl, by simp⟩
  refine ⟨congrArg AllocMark.mk (congrArg Frame.next hs.frame),
    Rests.alike halike (by simp) ⟨hs.tags, hs.world, ?_⟩⟩
  have hframe : { s.frame with heap := .marked :: s.heap } =
      { fr with heap := .marked :: fr.heap } := by
    rw [hs.frame, show s.heap = fr.heap from congrArg Frame.heap hs.frame]
  exact hframe

/-- The frame after a reset to `target`. -/
structure Resets (fr : Frame) (target : ℕ) (fr' : Frame) : Prop where
  next : fr'.next = min target fr.next
  argsSlots : fr'.argsSlots = fr.argsSlots.filter fun slot => slot.region.addr < target
  dram : fr'.dram = fr.dram
  kernelEnd : fr'.kernelEnd = fr.kernelEnd

/-- The host buffers that a reset to `target` unmaps. -/
def forgottenHosts (slots : List ArgsSlot) (target : ℕ) (outstanding : Finset Tag) : List BufId :=
  (((slots.filter fun slot => ¬slot.region.addr < target).filter fun slot =>
    ¬slot.busy outstanding).filterMap (·.host)).map (·.id)

theorem mem_forgottenHosts {slots : List ArgsSlot} {target : ℕ} {outstanding : Finset Tag}
    {b : BufId} (h : b ∈ forgottenHosts slots target outstanding) :
    ∃ slot ∈ slots, ∃ host, slot.host = some host ∧ host.id = b := by
  obtain ⟨host, hhost, rfl⟩ := List.mem_map.1 h
  obtain ⟨slot, hslot, hh⟩ := List.mem_filterMap.1 hhost
  exact ⟨slot, (List.mem_filter.1 (List.mem_filter.1 hslot).1).1, host, hh, rfl⟩

theorem resetTo_rests (hidle : Idle fr) {k : ℕ} {mark : AllocMark} :
    Triple (Rests clean X acc fr handles pinned) (resetTo k mark)
      (Ends (fun _ s => ∃ fr', Resets fr (max mark.position fr.kernelEnd) fr' ∧ Idle fr' ∧
        Rests clean X acc fr' handles pinned s) F) := by
  refine .read_bind fun dev => .intro (p := dev.next = fr.next ∧ dev.kernelEnd = fr.kernelEnd ∧
    dev.argsSlots = fr.argsSlots) (fun s hs => ?_) fun hdev => ?_
  · obtain ⟨hs, rfl⟩ := hs
    exact ⟨congrArg Frame.next hs.frame, congrArg Frame.kernelEnd hs.frame,
      congrArg Frame.argsSlots hs.frame⟩
  rw [hdev.1, hdev.2.1, hdev.2.2]
  generalize max mark.position fr.kernelEnd = target
  let fr₁ : Frame := { fr with
    next := min target fr.next
    heap := if target < fr.next then .reset k :: fr.heap else fr.heap }
  let P : World → Prop := fun w => Shelf clean (Base clean X acc fr handles pinned) acc fr w ∧ w.accepted = acc
  have hmark : ∀ s, Rests clean X acc fr handles pinned s → target < fr.next → Ready P fr₁
      (fr.pending ++ (fr.cut ++ owed handles)) []
      { s with dev := { s.dev with next := target }, heap := .reset k :: s.heap } := by
    refine fun s hs hlt => ⟨hs.tags, hs.world, ?_⟩
    have hframe : { s.frame with next := target, heap := .reset k :: s.heap } = fr₁ := by
      rw [hs.frame, show s.heap = fr.heap from congrArg Frame.heap hs.frame]
      simp only [fr₁, if_pos hlt, Nat.min_eq_left hlt.le]
    exact hframe
  have hkeep : ∀ s, Rests clean X acc fr handles pinned s → ¬target < fr.next → Ready P fr₁
      (fr.pending ++ (fr.cut ++ owed handles)) [] s := by
    refine fun s hs hle => ⟨hs.tags, hs.world, ?_⟩
    rw [hs.frame]
    simp only [fr₁, if_neg hle, Nat.min_eq_right (Nat.le_of_not_lt hle)]
  let gone := forgottenHosts fr.argsSlots target dev.outstanding
  let fr₂ : Frame := { fr₁ with
    unmapped := gone ++ fr.unmapped
    argsSlots := fr.argsSlots.filter fun slot => slot.region.addr < target }
  have hforeign : ∀ b ∈ gone, b.purpose ≠ .staging := fun b hb => by
    obtain ⟨slot, hslot, host, hh, rfl⟩ := mem_forgottenHosts hb
    simp [hidle.arguments slot hslot host hh]
  have halike : fr.Alike fr₂ gone :=
    ⟨rfl, rfl, rfl, rfl, fun slot hslot => (List.mem_filter.1 hslot).1, rfl, hforeign⟩
  have hforget : Triple (Ready P fr₁ (fr.pending ++ (fr.cut ++ owed handles)) [])
      (do
        unmap (((fr.argsSlots.filter fun slot => ¬slot.region.addr < target).filter fun slot =>
          ¬slot.busy dev.outstanding).filterMap (·.host))
        modifyDev fun d => { d with
          argsSlots := d.argsSlots.filter fun slot => slot.region.addr < target })
      (Ends (fun _ s => ∃ fr', Resets fr target fr' ∧ Idle fr' ∧
        Rests clean X acc fr' handles pinned s) F) := by
    refine .bind unmap_spec fun _ s hs => ?_
    refine ⟨fr₂, ⟨rfl, rfl, rfl, rfl⟩, hidle.alike halike, Rests.alike halike (fun w hw b hb => ?_)
      ⟨hs.tags, hs.world, ?_⟩⟩
    · obtain ⟨slot, hslot, host, hh, rfl⟩ := mem_forgottenHosts hb
      exact hw.slotted slot hslot host hh
    · have hframe : { s.frame with
          argsSlots := s.dev.argsSlots.filter fun slot => slot.region.addr < target } = fr₂ := by
        rw [hs.frame, show s.dev.argsSlots = fr.argsSlots from congrArg Frame.argsSlots hs.frame]
        rfl
      exact hframe
  exact .ite (fun hlt s hs => hforget _ (hmark s hs.1 hlt)) fun hle =>
    hforget.pre fun s hs => hkeep s hs.1 hle

/-! ## Settings -/

theorem two_le_alignStagingCapacity (bytes : ℕ) (dram : DramInfo) :
    2 ≤ alignStagingCapacity bytes dram := by
  have hquantum : 1 * 2 ≤ max (bytes / (2 * dram.alignment)) 1 * (2 * dram.alignment) :=
    Nat.mul_le_mul (Nat.le_max_right ..) (by have := dram.one_le_alignment; omega)
  exact hquantum

theorem setStagingCapacity_rests (hidle : Idle fr) {bytes : ℕ} :
    Triple (Rests clean X acc fr handles pinned) (setStagingCapacity bytes)
      (Ends (fun _ s => ∃ fr', Idle fr' ∧ fr'.argsSlots = fr.argsSlots ∧ fr'.next = fr.next ∧
        Rests clean X acc fr' handles pinned s) F) := by
  refine .read_bind fun dev => .intro (p := dev.staging = fr.staging)
    (fun s hs => hs.2 ▸ congrArg Frame.staging hs.1.frame) fun hdev => ?_
  rw [hdev]
  refine .bind (unmap_spec.pre fun _ h => h.1) fun _ s hs => ?_
  let fr' : Frame := { fr with
    staging := []
    stagingCapacity := alignStagingCapacity bytes fr.dram
    unmapped := fr.staging.map (·.id) ++ fr.unmapped }
  refine ⟨fr', ⟨⟨⟨by simp [fr'], by simp [fr'], by simp [fr']⟩, by simp [fr'], by simp [fr'],
    two_le_alignStagingCapacity ..⟩, hidle.pending, hidle.arguments⟩, rfl, rfl, hs.tags, ?_, ?_⟩
  · obtain ⟨hw, hacc⟩ := hs.world
    refine ⟨⟨⟨hw.base.extra, hw.base.follows, hw.base.racked, hw.base.slotted⟩, hw.known, by simp [fr'],
      fun b hb => ?_, by simp [fr'], fun hcut b hb hp => ?_⟩, hacc⟩ <;>
      rcases List.mem_append.1 hb with hb | hb
    · obtain ⟨c, hc, rfl⟩ := List.mem_map.1 hb
      exact hw.mapped c hc
    · exact hw.gone b hb
    · obtain ⟨c, hc, rfl⟩ := List.mem_map.1 hb
      exact hw.released hcut c hc
    · exact hw.discarded hcut b hb hp
  · have hframe : { s.frame with
        staging := []
        stagingCapacity := alignStagingCapacity bytes s.dev.dram } = fr' := by
      rw [hs.frame, show s.dev.dram = fr.dram from congrArg Frame.dram hs.frame]
    exact hframe

theorem setDefaultTimeout_rests {timeout : Duration} :
    Triple (Rests clean X acc fr handles pinned) (modifyDev fun d => { d with defaultTimeout := timeout })
      (Ends (fun _ => Rests clean X acc { fr with defaultTimeout := timeout } handles pinned) F) := by
  have halike : fr.Alike { fr with defaultTimeout := timeout } [] :=
    ⟨rfl, rfl, rfl, rfl, fun _ h => h, rfl, by simp⟩
  refine .modify fun s hs => Rests.alike halike (by simp) ⟨hs.tags, hs.world, ?_⟩
  have hframe : { s.frame with defaultTimeout := timeout } =
      { fr with defaultTimeout := timeout } := by rw [hs.frame]
  exact hframe

theorem tick_rests (hX : Stable E X) :
    Triple (Rests clean X acc fr handles pinned) tick
      (Ends (fun _ => Rests clean X acc fr handles pinned) F) :=
  tick_spec (Rests.patient hX)

/-! ## Pinned buffers -/

theorem allocPinned_rests (hX : Stable E X) (hdistinct : Distinct pinned) {len : ℕ} :
    Triple (Rests clean X acc fr handles pinned) (allocPinned len)
      (Ends (fun buffer s => ∃ host, buffer.host = some host ∧ Distinct (pinned ++ [host]) ∧
          Rests clean X acc fr handles (pinned ++ [host]) s)
        fun _ => Rests clean X acc fr handles pinned) := by
  let Q : ℕ → World → Prop := fun serial w =>
    (Shelf clean (Base clean X acc fr handles pinned) acc fr w ∧ w.accepted = acc) ∧
      (∀ host ∈ pinned, host.id.serial < serial) ∧ serial < w.nextBuf ∧
      w.Released acc ⟨.pinned, serial⟩
  refine .bind ((dmaHostBuffer_spec (Q := Q) (Rests.patient hX) fun w contents hs hw => ?_).conseq
    (fun _ h => h) (fun _ _ h => h) (fun _ _ h => h.1) fun _ h => h) fun host => .exists_pre
      fun serial => .and_pre fun hid => .read_bind fun dev => .pure fun s hs => ?_
  · refine ⟨⟨stable_shelf (stable_base hX) w _ hs (.map _ _) hw.1, hw.2⟩,
      hw.1.base.racked.mapped, Nat.lt_succ_self _, fun c a ha ⟨n, hn, hbuf⟩ => ?_⟩
    have := hw.1.known a (hw.2 ▸ List.mem_of_getElem? ha) n hn
    rw [hbuf] at this
    exact absurd this (Nat.lt_irrefl _)
  · obtain ⟨⟨-, hs⟩, -⟩ := hs
    obtain ⟨⟨hw, hacc⟩, hless, hmapped, hreleased⟩ := hs.world
    have hmem : ∀ host' ∈ pinned ++ [host], host' ∈ pinned ∨ host' = host := fun host' hh => by
      simpa using hh
    refine ⟨host, rfl, ⟨?_, fun host' hh => ?_⟩, hs.tags, ⟨⟨⟨hw.base.extra, hw.base.follows,
      ⟨fun host' hh => ?_, fun hcut host' hh => ?_⟩, hw.base.slotted⟩, hw.known, hw.mapped, hw.gone,
      hw.released, hw.discarded⟩, hacc⟩, hs.frame⟩
    · rw [List.map_append, List.nodup_append]
      refine ⟨hdistinct.nodup, by simp, fun b hb b' hb' heq => ?_⟩
      obtain ⟨host', hh, rfl⟩ := List.mem_map.1 hb
      obtain rfl : b' = host.id := by simpa using hb'
      have := hless host' hh
      rw [heq, hid] at this
      exact Nat.lt_irrefl _ this
    · obtain hh | rfl := hmem host' hh
      · exact hdistinct.purpose host' hh
      · rw [hid]
    · obtain hh | rfl := hmem host' hh
      · exact hw.base.racked.mapped host' hh
      · rw [hid]
        exact hmapped
    · obtain hh | rfl := hmem host' hh
      · exact hw.base.racked.released hcut host' hh
      · rw [hid]
        exact hreleased

theorem writePinned_rests (hX : Stable E X) (hdistinct : Distinct pinned)
    (hstrict : E.strict .pinned → clean) {buffer : PinnedBuffer} {data : List UInt8}
    (hmem : ∀ host, buffer.host = some host → host ∈ pinned) :
    Triple (Rests clean X acc fr handles pinned) (Session.writePinned buffer data)
      (Ends (fun _ => Rests clean X acc fr handles pinned) F) := by
  unfold Session.writePinned
  split
  · rename_i host hhost
    have hin := hmem host hhost
    refine writeHost_spec (Rests.patient hX) fun w hs ⟨hw, hacc⟩ =>
      ⟨stable_shelf (stable_base hX) w _ hs (.fill _ _ fun hst => ?_) hw, hacc⟩
    rw [hdistinct.purpose host hin] at hst
    rw [← World.vacant_accepted, hacc]
    exact (hw.base.racked.released (hstrict hst) host hin).vacant hs
  · exact .pure fun _ h => h

/-- Forget and unmap pinned buffers. -/
theorem dropPinned_rests (hidle : Idle fr) {pinned' dropped : List DmaHostBuffer}
    (hdistinct : Distinct pinned) (hsub : pinned' ⊆ pinned) (hdropped : dropped ⊆ pinned) :
    Triple (Rests clean X acc fr handles pinned) (unmap dropped)
      (Ends (fun _ s => ∃ fr', Idle fr' ∧ fr'.argsSlots = fr.argsSlots ∧ fr'.next = fr.next ∧
        Rests clean X acc fr' handles pinned' s) F) := by
  refine (unmap_spec (F := F)).conseq (fun _ h => h) (fun _ s hs => ?_) (fun _ _ h => h) fun _ h => h
  have halike : fr.Alike { fr with unmapped := dropped.map (·.id) ++ fr.unmapped }
      (dropped.map (·.id)) := by
    refine ⟨rfl, rfl, rfl, rfl, fun _ h => h, rfl, fun b hb => ?_⟩
    obtain ⟨host, hh, rfl⟩ := List.mem_map.1 hb
    simp [hdistinct.purpose host (hdropped hh)]
  refine ⟨_, hidle.alike halike, rfl, rfl, ?_⟩
  have hs := Rests.alike halike (fun w hw b hb => ?_) hs
  · exact Ready.mono hs fun w ⟨hw, hacc⟩ => ⟨hw.mono fun hbase =>
      ⟨hbase.extra, hbase.follows, hbase.racked.subset hsub, hbase.slotted⟩, hacc⟩
  · obtain ⟨host, hh, rfl⟩ := List.mem_map.1 hb
    exact hw.racked.mapped host (hdropped hh)

end EtSoc

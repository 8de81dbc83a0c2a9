import EtSoc.Verification.Session.Steadfast
import EtSoc.Verification.World.Moves

/-! # What moves the allocator -/

namespace EtSoc

open Function Program

/-- The state once `region` was allocated. -/
def Sys.allocated (s : Sys) (region : DeviceRegion) : Sys :=
  { s with
    dev := { s.dev with next := region.endAddr }
    heap := .allocated region :: s.heap }

/-- The state after a reset to `target`, that is to the `k`th mark, but for the buffers of
the slots forgotten. -/
def Sys.resetTo (s : Sys) (k target : ℕ) : Sys :=
  { s with
    dev := { s.dev with
      next := min target s.dev.next
      argsSlots := s.dev.argsSlots.filter fun slot => slot.region.addr < target }
    heap := if target < s.dev.next then .reset k :: s.heap else s.heap }

/-- The state once the segments were written and the DRAM up to `kernelEnd` reserved. -/
def Sys.loaded (s : Sys) (segments : List Elf.LoadSegment) (kernelEnd : ℕ) : Sys :=
  { s with
    dev := { s.dev with kernelEnd := kernelEnd, next := max s.dev.next kernelEnd }
    heap := .loaded (segments.map fun s => (s.vaddr, s.memSize)) kernelEnd :: s.heap }

/-- The region that the allocator of `s` hands out for `size` bytes. -/
structure Sys.Hands (s : Sys) (size : ℕ) (region : DeviceRegion) : Prop where
  addr : region.addr = PowersOfTwo.alignUp s.dev.next (allocAlignment s.dev.dram)
  len : region.size = size
  align : s.dev.next + allocAlignment s.dev.dram < 2 ^ 64
  limit : s.dev.dram.base + s.dev.dram.size < 2 ^ 64
  within : region.endAddr ≤ s.dev.dram.base + s.dev.dram.size

/-- A segment passes the checks of the loader. -/
structure Admitted (dram : DramInfo) (liveStart liveEnd : ℕ) (seg : Elf.LoadSegment) : Prop where
  above : dram.base ≤ seg.vaddr
  below : seg.vaddr + seg.memSize ≤ dram.base + dram.size
  apart : ¬(0 < seg.memSize ∧ seg.vaddr < liveEnd ∧ liveStart < seg.vaddr + seg.memSize)

/-- An image may be loaded, and the DRAM up to `kernelEnd` reserved for it. -/
structure Sys.MayLoad (s : Sys) (segments : List Elf.LoadSegment) (kernelEnd : ℕ) : Prop where
  admitted : ∀ seg ∈ segments, Admitted s.dev.dram s.dev.kernelEnd s.dev.next seg
  covers : ∀ seg ∈ segments, seg.vaddr + seg.memSize ≤ kernelEnd
  within : kernelEnd ≤ s.dev.dram.base + s.dev.dram.size
  le : s.dev.kernelEnd ≤ s.dev.dram.base + s.dev.dram.size → s.dev.kernelEnd ≤ kernelEnd

variable {H : Stop → Prop} {B : Command → Prop} {A : ℕ → Prop} {Q : Sys → Prop}

/-! ## Allocation -/

section
variable {P : Sys → Prop} {E : Error → Sys → Prop} {S : Stop → Sys → Prop}
  (hpanic : ∀ s, P s → S (.panic "attempt to add with overflow") s)
include hpanic

theorem u64Add_triple {a b : ℕ} :
    Triple P (u64Add a b) ⟨fun c s => (c = a + b ∧ a + b < 2 ^ 64) ∧ P s, E, S⟩ :=
  .ite (fun hlt => .pure fun _ h => ⟨⟨rfl, hlt⟩, h⟩) fun _ => .panic hpanic

theorem alignUpChecked_triple {value align : ℕ} : Triple P (alignUpChecked value align)
    ⟨fun start s => (start = PowersOfTwo.alignUp value align ∧ value + align < 2 ^ 64) ∧ P s, E, S⟩ :=
  .bind (u64Add_triple hpanic) fun _ => .and_pre fun ⟨_, hlt⟩ => .pure fun _ hs => ⟨⟨rfl, hlt⟩, hs⟩

end

/-- Allocation changes the state as said, or not at all. -/
theorem alloc_triple (hpanic : H (.panic "attempt to add with overflow")) {size : ℕ}
    {R : DeviceRegion → Sys → Prop}
    (hR : ∀ s region, Q s → s.Hands size region → R region (s.allocated region)) :
    Triple Q (alloc size) ⟨R, fun _ => Q, fun r s => H r ∧ Q s⟩ := by
  have hpanic : ∀ dev s, Q s ∧ s.dev = dev → H (.panic "attempt to add with overflow") ∧ Q s :=
    fun dev s hs => ⟨hpanic, hs.1⟩
  refine .read_bind fun dev => .bind (alignUpChecked_triple (hpanic dev)) fun start =>
    .and_pre fun ⟨hstart, halign⟩ => .bind (u64Add_triple (hpanic dev)) fun stop =>
      .and_pre fun ⟨hstop, hlimit⟩ => .ite (fun _ => .throw fun s hs => hs.1) fun hfits s ⟨hs, hdev⟩ =>
        ?_
  subst hdev
  refine hR s ⟨start, size⟩ hs ⟨hstart, rfl, halign, hlimit, ?_⟩
  simp only [DeviceRegion.endAddr]
  omega

/-- A slot is found, or a new one is added. -/
theorem argsSlot_triple (hpanic : H (.panic "attempt to add with overflow")) {len : ℕ}
    {R : Sys → Prop}
    (hfound : ∀ s i, reusableSlot s.dev.argsSlots s.dev.outstanding len = some i → Q s → R s)
    (hnew : ∀ s region, reusableSlot s.dev.argsSlots s.dev.outstanding len = none → Q s →
      s.Hands len region → R { s.allocated region with dev := { (s.allocated region).dev with
        argsSlots := s.dev.argsSlots ++ [⟨region, none, none⟩] } }) :
    Triple Q (argsSlot len) ⟨fun _ => R, fun _ => Q, fun r s => H r ∧ Q s⟩ := by
  refine .read_bind fun dev => ?_
  cases hreusable : reusableSlot dev.argsSlots dev.outstanding len with
  | some i => exact .pure fun s hs => hfound s i (hs.2 ▸ hreusable) hs.1
  | none =>
    have halloc : Triple (fun s => Q s ∧ s.dev = dev) (alloc len) ⟨fun region s =>
        R { s with dev := { s.dev with argsSlots := s.dev.argsSlots ++ [⟨region, none, none⟩] } },
        fun _ => Q, fun r s => H r ∧ Q s⟩ := by
      refine (alloc_triple (Q := fun s => Q s ∧ s.dev = dev) hpanic fun s region hs hhands =>
        hnew s region ?_ hs.1 hhands).conseq (fun _ h => h) (fun _ _ h => h) (fun _ _ h => h.1)
          fun _ h => ⟨h.1, h.2.1⟩
      exact hs.2 ▸ hreusable
    refine .bind halloc fun region => .read_bind fun dev => .bind (R := fun _ => R)
      (.modify fun s hs => hs.1) fun _ => .pure fun _ h => h

/-! ## Checking segments -/

theorem checkSegments_triple {P : Sys → Prop} {E : Error → Sys → Prop} {S : Stop → Sys → Prop}
    {dram : DramInfo} {liveStart liveEnd : ℕ} (segs : List Elf.LoadSegment)
    (hpanic : ∀ seg ∈ segs, ¬seg.vaddr + seg.memSize < 2 ^ 64 →
      ∀ s, P s → S (.panic "attempt to add with overflow") s)
    (herr : ∀ message s, P s → E (.limit message) s) : ∀ occupied : ℕ,
    Triple P (checkSegments dram (dram.base + dram.size) liveStart liveEnd segs occupied)
      ⟨fun stop s => ((∀ seg ∈ segs, Admitted dram liveStart liveEnd seg) ∧ occupied ≤ stop ∧
          (∀ seg ∈ segs, seg.vaddr + seg.memSize ≤ stop)) ∧ P s, E, S⟩ := by
  induction segs with
  | nil => exact fun occupied => .pure fun s hs => ⟨by simp, hs⟩
  | cons seg segs ih =>
    intro occupied
    refine .bind (R := fun stop s => (Admitted dram liveStart liveEnd seg ∧
      stop = max occupied (seg.vaddr + seg.memSize)) ∧ P s) ?_ fun stop =>
        .and_pre fun ⟨hseg, hstop⟩ => ?_
    · refine .bind (R := fun segEnd s => segEnd = seg.vaddr + seg.memSize ∧ P s) (.ite
        (fun _ => .pure fun _ hs => ⟨rfl, hs⟩) fun hlt => .panic (hpanic seg List.mem_cons_self hlt))
          fun segEnd => .and_pre fun hend => ?_
      subst hend
      refine .ite (fun _ => .throw (herr _)) fun hrange => .ite (fun _ => .throw (herr _))
        fun hapart => .pure fun s hs => ⟨⟨⟨?_, ?_, hapart⟩, rfl⟩, hs⟩
      · omega
      · omega
    · refine (ih (fun t ht => hpanic t (List.mem_cons_of_mem _ ht)) stop).conseq (fun _ h => h)
        (fun last s ⟨⟨hsegs, hle, hends⟩, hs⟩ => ⟨⟨?_, ?_, ?_⟩, hs⟩)
        (fun _ _ h => h) fun _ h => h
      · intro t ht
        rcases List.mem_cons.1 ht with rfl | ht
        · exact hseg
        · exact hsegs t ht
      · omega
      · intro t ht
        rcases List.mem_cons.1 ht with rfl | ht
        · omega
        · exact hends t ht

theorem DramInfo.one_le_alignment (dram : DramInfo) : 1 ≤ dram.alignment :=
  PowersOfTwo.nextPowerOfTwo_pos _

/-- What a load reserves covers its segments. -/
theorem occupied_le_alignUp {dram : DramInfo} {occupied : ℕ}
    (h : occupied + max dram.alignment 1 < 2 ^ 64) :
    occupied ≤ PowersOfTwo.alignUp occupied (max dram.alignment 1) := by
  obtain ⟨k, hk⟩ := PowersOfTwo.nextPowerOfTwo_eq (max dram.dmaAlignment 1)
  have hmax : max dram.alignment 1 = 2 ^ k := by
    rw [Nat.max_eq_left dram.one_le_alignment]
    exact hk
  rw [hmax] at h ⊢
  have hk : k < 64 := (Nat.pow_lt_pow_iff_right (by omega : 1 < 2)).1 (by omega)
  exact PowersOfTwo.le_alignUp hk h

/-! ## What changes the allocator keeps -/

/-- The calls that move the allocator keep `Q`. -/
structure HeapSteady (H : Stop → Prop) (B : Command → Prop) (A : ℕ → Prop)
    (Q : List AllocMark → Sys → Prop) : Prop where
  deaf : ∀ marks, Deaf H B (Q marks)
  pending : ∀ marks, Unpending (Q marks)
  push : ∀ marks direction host len addr opts,
    Triple (Q marks) (pushDmaStaged direction host len addr opts) (Always H (Q marks))
  slots : ∀ marks s i f, (∀ slot : ArgsSlot, (f slot).region = slot.region) → Q marks s →
    Q marks { s with dev := { s.dev with argsSlots := s.dev.argsSlots.modify i f } }
  addr : ∀ marks s, Q marks s → ∀ slot ∈ s.dev.argsSlots, A slot.region.addr
  zero : A 0
  timeout : ∀ marks s timeout, Q marks s →
    Q marks { s with dev := { s.dev with defaultTimeout := timeout } }
  allocated : ∀ marks s size region, Q marks s → s.Hands size region → Q marks (s.allocated region)
  slot : ∀ marks s size region, Q marks s → s.Hands size region →
    Q marks { s.allocated region with dev := { (s.allocated region).dev with
      argsSlots := s.dev.argsSlots ++ [⟨region, none, none⟩] } }
  marked : ∀ marks s, Q marks s → Q (marks ++ [⟨s.dev.next⟩]) { s with heap := .marked :: s.heap }
  reset : ∀ marks s k mark, marks[k]? = some mark → Q marks s →
    Q marks (s.resetTo k (max mark.position s.dev.kernelEnd))
  loaded : ∀ marks s image elf kernelEnd, Elf.parse image = .ok elf → Q marks s →
    s.MayLoad elf.segments kernelEnd → Q marks (s.loaded elf.segments kernelEnd)

/-- What the loader has read of the device handle when it writes the segments. -/
def Device.view (dev : Device) : DramInfo × ℕ × ℕ := (dev.dram, dev.next, dev.kernelEnd)

theorem blind_view (v : DramInfo × ℕ × ℕ) :
    Blind (fun _ => True) fun s => s.dev.view = v := by
  have hdeaf : Deaf (fun _ => True) (fun _ => True) fun s => s.dev.view = v :=
    { waiting := trivial
      panics := fun _ _ => trivial
      act := fun _ _ _ h => h
      map := fun _ _ _ _ h => h
      fill := fun _ _ _ h => h
      unmapped := fun _ _ h => h
      staging := fun _ _ _ h => h
      taken := fun _ _ _ h => h
      tags := fun _ _ _ _ _ h => h
      log := fun _ _ h => h
      cut := fun _ _ h => h
      pop := fun _ _ h => h
      offer := fun _ _ _ h => h
      accept := fun _ _ _ _ _ h => h
      peak := fun _ _ _ h => h }
  exact hdeaf.toBlind (fun _ _ h => h) fun _ _ _ _ _ =>
    hdeaf.pushDmaStaged (fun _ _ h => h) (fun _ _ h => h) trivial (fun _ => trivial) _ _ _ _ _

namespace HeapSteady
variable {Q : List AllocMark → Sys → Prop} {marks : List AllocMark} (h : HeapSteady H B A Q)

include h

theorem alloc (size : ℕ) : Triple (Rested (Q marks)) (alloc size) (Calls H (Q marks)) :=
  rested_stops (alloc_triple ((h.deaf marks).panics _ (by decide)) fun s region hs hhands =>
    ⟨h.allocated marks s size region hs.1 hhands, hs.2⟩)

theorem argsSlot (len : ℕ) : Triple (Rested (Q marks)) (argsSlot len) (Calls H (Q marks)) :=
  rested_stops (argsSlot_triple ((h.deaf marks).panics _ (by decide)) (fun _ _ _ hs => hs)
    fun s region _ hs hhands => ⟨h.slot marks s len region hs.1 hhands, hs.2⟩)

theorem allocMark : Triple (Rested (Q marks)) allocMark
    ⟨fun mark => Rested (Q (marks ++ [mark])), fun _ _ => False, fun _ _ => False⟩ := by
  refine .read_bind fun dev => .bind (R := fun _ => Rested (Q (marks ++ [⟨dev.next⟩])))
    (.modify fun s hs => ?_) fun _ => .pure fun _ h => h
  obtain ⟨hs, rfl⟩ := hs
  exact ⟨h.marked marks s hs.1, hs.2⟩

theorem resetTo (k : ℕ) (mark : AllocMark) (hk : marks[k]? = some mark) :
    Triple (Rested (Q marks)) (resetTo k mark) (Calls H (Q marks)) := by
  refine .fix fun s₀ hs₀ => .read_bind fun dev => .intro (p := dev = s₀.dev)
    (fun s hs => by rw [← hs.2, hs.1]) fun hdev => ?_
  subst hdev
  generalize htarget : max mark.position s₀.dev.kernelEnd = target
  let s₁ : Sys := { s₀ with
    dev := { s₀.dev with next := min target s₀.dev.next }
    heap := if target < s₀.dev.next then .reset k :: s₀.heap else s₀.heap }
  have hforget : Triple (fun s => s = s₁) (do
      EtSoc.unmap (((s₀.dev.argsSlots.filter fun slot => ¬slot.region.addr < target).filter fun slot =>
        ¬slot.busy s₀.dev.outstanding).filterMap (·.host))
      modifyDev fun d => { d with
        argsSlots := d.argsSlots.filter fun slot => slot.region.addr < target })
      (Calls H (Q marks)) := by
    rintro _ rfl
    have hreset := h.reset marks s₀ k mark hk hs₀.1
    rw [htarget] at hreset
    exact ⟨(h.deaf marks).unmapped _ _ hreset, hs₀.2⟩
  refine .ite (fun hlt s hs => hforget _ ?_) fun hle => hforget.pre fun s hs => ?_
  · obtain ⟨rfl, -⟩ := hs
    simp only [s₁, if_pos hlt, Nat.min_eq_left hlt.le]
  · obtain ⟨rfl, -⟩ := hs
    simp only [s₁, if_neg hle, Nat.min_eq_right (Nat.le_of_not_lt hle)]

theorem calm (marks : List AllocMark) : Calm H B A (Q marks) where
  toNumb := (h.deaf marks).toNumb
  mapOther := (h.deaf marks).toAloof.unstaged.mapOther
  unmapped := (h.deaf marks).unmapped
  pending := h.pending marks
  push := h.push marks
  slots := h.slots marks
  argsSlot := h.argsSlot
  addr := h.addr marks

theorem transfers (marks : List AllocMark) : Staging H (Q marks) :=
  ((h.deaf marks).toBlind (h.pending marks) (h.push marks)).transfers

theorem loadKernel (image : List UInt8) :
    Triple (Rested (Q marks)) (loadKernel image) (Calls H (Q marks)) := by
  have hpanics : ∀ dev s, Rested (Q marks) s ∧ s.dev = dev →
      H (.panic "attempt to add with overflow") ∧ Q marks s :=
    fun dev s hs => ⟨(h.deaf marks).panics _ (by decide), hs.1.1⟩
  refine .bind (R := fun elf s => Elf.parse image = .ok elf ∧ Rested (Q marks) s)
    (.ofExcept (fun elf h s hs => ⟨h, hs⟩) fun e _ s hs => hs) fun elf => .and_pre fun hparse =>
      .read_bind fun dev => .bind (u64Add_triple (hpanics dev)) fun regionEnd =>
        .and_pre fun ⟨hregion, _⟩ => ?_
  subst hregion
  refine .bind (checkSegments_triple elf.segments (fun _ _ _ => hpanics dev) (fun _ _ hs => hs.1) _)
    fun occupied => .and_pre fun ⟨hadmitted, hle, hends⟩ => ?_
  refine .bind (((h.transfers marks).loadSegments image elf.segments).both
    ((blind_view dev.view).transfers.loadSegments image elf.segments) |>.conseq
      (fun s hs => ⟨hs.1, ⟨congrArg Device.view hs.2, hs.1.2⟩⟩) (fun _ _ h => h) (fun _ _ hs => hs.1)
      fun _ hs => hs.1) fun _ => ?_
  refine .bind (alignUpChecked_triple fun s hs => ⟨(h.deaf marks).panics _ (by decide), hs.1.1⟩)
    fun aligned => .and_pre fun ⟨haligned, hfits⟩ s hs => ?_
  obtain ⟨⟨hs, hp⟩, hview, -⟩ := hs
  obtain ⟨hdram, hnext, hend⟩ : s.dev.dram = dev.dram ∧ s.dev.next = dev.next ∧
      s.dev.kernelEnd = dev.kernelEnd := by simpa [Device.view] using hview
  have hup : occupied ≤ aligned := haligned ▸ occupied_le_alignUp hfits
  have hmay : s.MayLoad elf.segments (min aligned (dev.dram.base + dev.dram.size)) := by
    refine ⟨?_, fun seg hseg => ?_, ?_, ?_⟩
    · rw [hdram, hnext, hend]
      exact hadmitted
    · exact Nat.le_min.2 ⟨(hends seg hseg).trans hup, (hadmitted seg hseg).below⟩
    · rw [hdram]
      exact Nat.min_le_right ..
    · rw [hdram, hend]
      exact fun h => Nat.le_min.2 ⟨hle.trans hup, h⟩
  exact ⟨h.loaded marks s image elf _ hparse hs hmay, hp⟩

theorem steadfast : Steadfast H B A Q where
  calm := h.calm
  zero := h.zero
  timeout := h.timeout
  alloc _ := h.alloc
  allocMark _ := h.allocMark
  resetTo _ := h.resetTo
  transfers := h.transfers
  setStagingCapacity marks := (h.deaf marks).toAloof.setStagingCapacity
  loadKernel _ := h.loadKernel

end HeapSteady

/-! ## The allocator alone -/

/-- What the allocator works on. -/
structure HeapState where
  dram : DramInfo
  next : ℕ
  kernelEnd : ℕ
  slots : List DeviceRegion
  heap : List HeapEvent

def Sys.heapState (s : Sys) : HeapState where
  dram := s.dev.dram
  next := s.dev.next
  kernelEnd := s.dev.kernelEnd
  slots := s.dev.argsSlots.map (·.region)
  heap := s.heap

theorem map_region_modify {slots : List ArgsSlot} {i : ℕ} {f : ArgsSlot → ArgsSlot}
    (hf : ∀ slot, (f slot).region = slot.region) :
    (slots.modify i f).map (·.region) = slots.map (·.region) := by
  refine List.ext_getElem? fun j => ?_
  rw [List.getElem?_map, List.getElem?_map, List.getElem?_modify]
  cases slots[j]? with
  | none => rfl
  | some slot => by_cases hij : i = j <;> simp [hij, hf]

/-- Only the calls that move the allocator matter to a property of what it works on. -/
theorem heapSteady_of_heapState {Q : List AllocMark → HeapState → Prop}
    (hallocated : ∀ marks (s : Sys) size region, Q marks s.heapState → s.Hands size region →
      Q marks (s.allocated region).heapState)
    (hslot : ∀ marks (s : Sys) size region, Q marks s.heapState → s.Hands size region →
      Q marks { (s.allocated region).heapState with slots := s.heapState.slots ++ [region] })
    (hmarked : ∀ marks (s : Sys), Q marks s.heapState →
      Q (marks ++ [⟨s.dev.next⟩]) { s.heapState with heap := .marked :: s.heap })
    (hreset : ∀ marks (s : Sys) k mark, marks[k]? = some mark → Q marks s.heapState →
      Q marks (s.resetTo k (max mark.position s.dev.kernelEnd)).heapState)
    (hloaded : ∀ marks (s : Sys) image elf kernelEnd, Elf.parse image = .ok elf → Q marks s.heapState →
      s.MayLoad elf.segments kernelEnd → Q marks (s.loaded elf.segments kernelEnd).heapState) :
    HeapSteady (fun _ => True) (fun _ => True) (fun _ => True) fun marks s => Q marks s.heapState := by
  have hdeaf : ∀ marks, Deaf (fun _ => True) (fun _ => True) fun s => Q marks s.heapState :=
    fun marks =>
    { waiting := trivial
      panics := fun _ _ => trivial
      act := fun _ _ _ h => h
      map := fun _ _ _ _ h => h
      fill := fun _ _ _ h => h
      unmapped := fun _ _ h => h
      staging := fun _ _ _ h => h
      taken := fun _ _ _ h => h
      tags := fun _ _ _ _ _ h => h
      log := fun _ _ h => h
      cut := fun _ _ h => h
      pop := fun _ _ h => h
      offer := fun _ _ _ h => h
      accept := fun _ _ _ _ _ h => h
      peak := fun _ _ _ h => h }
  exact
    { deaf := hdeaf
      pending := fun _ _ _ h => h
      push := fun marks _ _ _ _ _ => (hdeaf marks).pushDmaStaged (fun _ _ h => h) (fun _ _ h => h)
        trivial (fun _ => trivial) _ _ _ _ _
      slots := fun marks s i f hf h => by
        have hstate : Sys.heapState { s with dev := { s.dev with
            argsSlots := s.dev.argsSlots.modify i f } } = s.heapState := by
          simp only [Sys.heapState, map_region_modify hf]
        rw [hstate]
        exact h
      addr := fun _ _ _ _ _ => trivial
      zero := trivial
      timeout := fun _ _ _ h => h
      allocated := hallocated
      slot := fun marks s size region h hhands => by
        have := hslot marks s size region h hhands
        simpa [Sys.heapState, Sys.allocated] using this
      marked := hmarked
      reset := hreset
      loaded := hloaded }

/-- The bump pointer stays inside the DRAM region. -/
theorem heapSteady_within (dram : DramInfo) :
    HeapSteady (fun _ => True) (fun _ => True) (fun _ => True) fun _ s =>
      s.dev.dram = dram ∧ s.dev.next ≤ dram.base + dram.size :=
  heapSteady_of_heapState (Q := fun _ h => h.dram = dram ∧ h.next ≤ dram.base + dram.size)
    (fun _ _ _ _ h hhands => ⟨h.1, h.1 ▸ hhands.within⟩)
    (fun _ _ _ _ h hhands => ⟨h.1, h.1 ▸ hhands.within⟩) (fun _ _ h => h)
    (fun _ _ _ _ _ h => ⟨h.1, (Nat.min_le_right ..).trans h.2⟩)
    fun _ _ _ _ _ _ h hmay => ⟨h.1, Nat.max_le.2 ⟨h.2, h.1 ▸ hmay.within⟩⟩

/-! ## The machine -/

/-- The device behind a session is what it was. -/
theorem heapSteady_machine (machine : Machine) :
    HeapSteady (fun _ => True) (fun _ => True) (fun _ => True)
      fun _ s => s.world.machine = machine := by
  have hdeaf : Deaf (fun _ => True) (fun _ => True) fun s : Sys => s.world.machine = machine :=
    { waiting := trivial
      panics := fun _ _ => trivial
      act := fun s _ ds h => (s.world.steps_machine ds).trans h
      map := fun _ _ _ _ h => h
      fill := fun _ _ _ h => h
      unmapped := fun _ _ h => h
      staging := fun _ _ _ h => h
      taken := fun _ _ _ h => h
      tags := fun _ _ _ _ _ h => h
      log := fun _ _ h => h
      cut := fun _ _ h => h
      pop := fun _ _ h => h
      offer := fun _ _ _ h => h
      accept := fun _ _ _ _ _ h => h
      peak := fun _ _ _ h => h }
  exact
    { deaf := fun _ => hdeaf
      pending := fun _ _ _ h => h
      push := fun _ _ _ _ _ _ =>
        hdeaf.pushDmaStaged (fun _ _ h => h) (fun _ _ h => h) trivial (fun _ => trivial) _ _ _ _ _
      slots := fun _ _ _ _ _ h => h
      addr := fun _ _ _ _ _ => trivial
      zero := trivial
      timeout := fun _ _ _ h => h
      allocated := fun _ _ _ _ h _ => h
      slot := fun _ _ _ _ h _ => h
      marked := fun _ _ h => h
      reset := fun _ _ _ _ _ h => h
      loaded := fun _ _ _ _ _ _ h _ => h }

theorem Session.run_machine (setup : Setup) (calls : List Call) :
    ((init setup).run calls).sys.world.machine = setup.machine :=
  ((heapSteady_machine setup.machine).steadfast.run (s := init setup)
    ⟨rfl, fun _ => rfl, by simp [init]⟩ fun call _ => call.builds_any _).sys

end EtSoc

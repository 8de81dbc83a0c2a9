import EtSoc.Verification.Session.Heap

/-! # The allocator over a session

Which regions are live at each moment, and that the allocator hands out none of them
again. -/

namespace EtSoc

open Program PowersOfTwo

/-! ## Live regions -/

/-- The moments at which marks were taken, in the order of the marks. A moment is the number
of heap events before it. -/
def markedAt : List HeapEvent → List ℕ
  | [] => []
  | .marked :: older => markedAt older ++ [older.length]
  | _ :: older => markedAt older

/-- The regions handed out and not reclaimed, each with the moment at which it was. -/
def liveRegions : List HeapEvent → List (ℕ × DeviceRegion)
  | [] => []
  | .allocated region :: older => (older.length, region) :: liveRegions older
  | .marked :: older => liveRegions older
  | .reset k :: older =>
    (liveRegions older).filter fun p => p.1 < ((markedAt older)[k]?).getD older.length
  | .loaded _ _ :: older => liveRegions older

/-- The byte ranges `[start, stop)` and `[start', stop')` have no cache line in common. -/
def ApartLines (start stop start' stop' : ℕ) : Prop :=
  ∀ x y, start ≤ x → x < stop → start' ≤ y → y < stop' → x / cacheLine ≠ y / cacheLine

/-- What is promised of a region handed out after the events `older`. -/
structure Sound (dram : DramInfo) (older : List HeapEvent) (region : DeviceRegion) : Prop where
  aligned : max dram.alignment cacheLine ∣ region.addr
  base : dram.base ≤ region.addr
  limit : region.endAddr ≤ dram.base + dram.size
  regions : ∀ p ∈ liveRegions older,
    ApartLines region.addr region.endAddr p.2.addr p.2.endAddr
  kernels : ∀ segments kernelEnd, .loaded segments kernelEnd ∈ older → ∀ seg ∈ segments,
    ApartLines region.addr region.endAddr seg.1 (seg.1 + seg.2)

/-- Every region was handed out as promised. -/
def AllSound (dram : DramInfo) (heap : List HeapEvent) : Prop :=
  ∀ newer region older, heap = newer ++ .allocated region :: older → Sound dram older region

/-! ## The invariant -/

/-- How the bump pointer, the end of the kernels and the marks bound what is live. -/
structure HeapOrdered (dram : DramInfo) (marks : List AllocMark) (h : HeapState) : Prop where
  region : h.dram = dram
  base : dram.base ≤ h.kernelEnd
  kernelEnd : h.kernelEnd ≤ h.next
  limit : h.next ≤ dram.base + dram.size
  live : ∀ p ∈ liveRegions h.heap, p.2.endAddr ≤ h.next
  marked : (markedAt h.heap).length = marks.length
  positions : ∀ (k : ℕ) (mark : AllocMark) moment, marks[k]? = some mark →
    (markedAt h.heap)[k]? = some moment →
    ∀ p ∈ liveRegions h.heap, p.1 < moment → p.2.endAddr ≤ mark.position
  kernels : ∀ segments kernelEnd, .loaded segments kernelEnd ∈ h.heap → ∀ seg ∈ segments,
    seg.1 + seg.2 ≤ h.kernelEnd
  sound : AllSound dram h.heap

theorem markedAt_lt {heap : List HeapEvent} : ∀ moment ∈ markedAt heap, moment < heap.length := by
  induction heap with
  | nil => simp [markedAt]
  | cons e older ih =>
    have hstep : ∀ moment ∈ markedAt older, moment < (e :: older).length :=
      fun moment hm => (ih moment hm).trans (Nat.lt_succ_self _)
    cases e with
    | marked =>
      intro moment hm
      rcases List.mem_append.1 hm with hm | hm
      · exact hstep moment hm
      · rw [List.mem_singleton.1 hm]
        exact Nat.lt_succ_self _
    | allocated _ => exact hstep
    | reset _ => exact hstep
    | loaded _ _ => exact hstep

theorem liveRegions_lt {heap : List HeapEvent} : ∀ p ∈ liveRegions heap, p.1 < heap.length := by
  induction heap with
  | nil => simp [liveRegions]
  | cons e older ih =>
    have hstep : ∀ p ∈ liveRegions older, p.1 < (e :: older).length :=
      fun p hp => (ih p hp).trans (Nat.lt_succ_self _)
    cases e with
    | allocated region =>
      intro p hp
      rcases List.mem_cons.1 hp with rfl | hp
      · exact Nat.lt_succ_self _
      · exact hstep p hp
    | marked => exact hstep
    | reset k => exact fun p hp => hstep p (List.mem_filter.1 hp).1
    | loaded _ _ => exact hstep

theorem AllSound.cons_other {dram : DramInfo} {heap : List HeapEvent} {e : HeapEvent}
    (h : AllSound dram heap) (he : ∀ region, e ≠ .allocated region) : AllSound dram (e :: heap) := by
  intro newer region older heq
  cases newer with
  | nil => exact absurd (List.cons.inj heq).1 (he region)
  | cons e' newer => exact h newer region older (List.cons.inj heq).2

theorem AllSound.cons_allocated {dram : DramInfo} {heap : List HeapEvent} {region : DeviceRegion}
    (h : AllSound dram heap) (hregion : Sound dram heap region) :
    AllSound dram (.allocated region :: heap) := by
  intro newer region' older heq
  cases newer with
  | nil =>
    obtain ⟨heq, rfl⟩ := List.cons.inj heq
    cases heq
    exact hregion
  | cons e' newer => exact h newer region' older (List.cons.inj heq).2

/-! ## Handing out -/

theorem cacheLine_dvd_allocAlignment (dram : DramInfo) :
    ∃ k, allocAlignment dram = 2 ^ k ∧ cacheLine ∣ allocAlignment dram := by
  obtain ⟨k, hk⟩ := nextPowerOfTwo_eq (max dram.dmaAlignment 1)
  have halign : dram.alignment = 2 ^ k := hk
  rw [allocAlignment, halign]
  by_cases h6 : k ≤ 6
  · have hle : 2 ^ k ≤ cacheLine := Nat.pow_le_pow_right (by omega) h6
    exact ⟨6, by rw [Nat.max_eq_right hle]; rfl, by rw [Nat.max_eq_right hle]⟩
  · have hle : 2 ^ 6 ≤ 2 ^ k := Nat.pow_le_pow_right (by omega) (by omega)
    change cacheLine ≤ 2 ^ k at hle
    rw [Nat.max_eq_left hle]
    exact ⟨k, rfl, (pow_dvd_pow 2 (by omega) : 2 ^ 6 ∣ 2 ^ k)⟩

/-- What ends before a line starts shares no line with what follows. -/
theorem apartLines_of_le {start stop start' stop' : ℕ} (hdvd : cacheLine ∣ start)
    (hle : stop' ≤ start) : ApartLines start stop start' stop' := by
  intro x y hx _ _ hy
  obtain ⟨line, rfl⟩ := hdvd
  simp only [cacheLine] at *
  omega

/-- Where the allocator puts a region. -/
theorem Sys.Hands.placed {s : Sys} {size : ℕ} {region : DeviceRegion} (h : s.Hands size region) :
    s.dev.next ≤ region.addr ∧ allocAlignment s.dev.dram ∣ region.addr := by
  obtain ⟨k, hk, -⟩ := cacheLine_dvd_allocAlignment s.dev.dram
  have hfits := h.align
  rw [h.addr, hk]
  rw [hk] at hfits
  have hk : k < 64 := (Nat.pow_lt_pow_iff_right (by omega : 1 < 2)).1 (by omega)
  exact ⟨le_alignUp hk hfits, dvd_alignUp hk hfits⟩

variable {dram : DramInfo} {marks : List AllocMark}

theorem HeapOrdered.sound_of_hands {s : Sys} (h : HeapOrdered dram marks s.heapState) {size : ℕ}
    {region : DeviceRegion} (hhands : s.Hands size region) : Sound dram s.heap region := by
  obtain ⟨hnext, hdvd⟩ := hhands.placed
  obtain ⟨-, -, hline⟩ := cacheLine_dvd_allocAlignment s.dev.dram
  have hdram : s.dev.dram = dram := h.region
  have hline := hline.trans hdvd
  rw [hdram] at hdvd
  exact
    { aligned := hdvd
      base := (h.base.trans h.kernelEnd).trans hnext
      limit := hdram ▸ hhands.within
      regions := fun p hp => apartLines_of_le hline ((h.live p hp).trans hnext)
      kernels := fun segments kernelEnd hloaded seg hseg => apartLines_of_le hline
        (((h.kernels segments kernelEnd hloaded seg hseg).trans h.kernelEnd).trans hnext) }

/-! ## Steps -/

theorem HeapOrdered.allocated {s : Sys} (h : HeapOrdered dram marks s.heapState) {size : ℕ}
    {region : DeviceRegion} (hhands : s.Hands size region) :
    HeapOrdered dram marks (s.allocated region).heapState := by
  have hnext : s.dev.next ≤ region.endAddr := hhands.placed.1.trans (Nat.le_add_right ..)
  have hdram : s.dev.dram = dram := h.region
  exact
    { region := hdram
      base := h.base
      kernelEnd := h.kernelEnd.trans hnext
      limit := hdram ▸ hhands.within
      live := List.forall_mem_cons.2 ⟨le_rfl, fun p hp => (h.live p hp).trans hnext⟩
      marked := h.marked
      positions := fun k mark moment hk hmoment => List.forall_mem_cons.2
        ⟨fun hlt => absurd hlt (Nat.lt_asymm (markedAt_lt _ (List.mem_of_getElem? hmoment))),
          h.positions k mark moment hk hmoment⟩
      kernels := fun segments kernelEnd hloaded =>
        h.kernels segments kernelEnd ((List.mem_cons.1 hloaded).resolve_left (by simp))
      sound := h.sound.cons_allocated (h.sound_of_hands hhands) }

theorem HeapOrdered.markedNow {s : Sys} (h : HeapOrdered dram marks s.heapState) :
    HeapOrdered dram (marks ++ [⟨s.dev.next⟩]) { s.heapState with heap := .marked :: s.heap } where
  region := h.region
  base := h.base
  kernelEnd := h.kernelEnd
  limit := h.limit
  live := h.live
  marked := by
    rw [markedAt, List.length_append, List.length_append]
    exact congrArg (· + 1) h.marked
  positions := by
    intro k mark moment hk hmoment
    rw [markedAt] at hmoment
    by_cases hlt : k < marks.length
    · rw [List.getElem?_append_left hlt] at hk
      rw [List.getElem?_append_left (h.marked ▸ hlt)] at hmoment
      exact h.positions k mark moment hk hmoment
    · rw [List.getElem?_append_right (Nat.not_lt.1 hlt)] at hk
      have hmark : (⟨s.dev.next⟩ : AllocMark) = mark :=
        List.mem_singleton.1 (List.mem_of_getElem? hk) |>.symm
      exact fun p hp _ => hmark ▸ h.live p hp
  kernels := fun segments kernelEnd hloaded =>
    h.kernels segments kernelEnd ((List.mem_cons.1 hloaded).resolve_left (by simp))
  sound := h.sound.cons_other (by simp)

theorem HeapOrdered.reset {s : Sys} (h : HeapOrdered dram marks s.heapState) {k : ℕ}
    {mark : AllocMark} (hk : marks[k]? = some mark) :
    HeapOrdered dram marks (s.resetTo k (max mark.position s.dev.kernelEnd)).heapState := by
  generalize htarget : max mark.position s.dev.kernelEnd = target
  have hkernelEnd : s.dev.kernelEnd ≤ target := htarget ▸ Nat.le_max_right ..
  have hle : s.dev.kernelEnd ≤ s.dev.next := h.kernelEnd
  by_cases hlt : target < s.dev.next
  · have hlength : k < (markedAt s.heap).length := by
      rw [show (markedAt s.heap).length = marks.length from h.marked]
      exact (List.getElem?_eq_some_iff.1 hk).1
    have hmoment := List.getElem?_eq_getElem hlength
    have hstate : (s.resetTo k target).heapState = { s.heapState with
        next := target
        slots := (s.resetTo k target).heapState.slots
        heap := .reset k :: s.heap } := by
      simp only [Sys.resetTo, Sys.heapState, if_pos hlt, Nat.min_eq_left hlt.le]
    have hlive : liveRegions (.reset k :: s.heap) =
        (liveRegions s.heap).filter fun p => p.1 < (markedAt s.heap)[k] := by
      rw [liveRegions, hmoment]
      rfl
    rw [hstate]
    refine
      { region := h.region
        base := h.base
        kernelEnd := hkernelEnd
        limit := hlt.le.trans h.limit
        live := fun p hp => ?_
        marked := h.marked
        positions := fun j mark' moment hj hmoment' p hp =>
          h.positions j mark' moment hj hmoment' p (List.mem_filter.1 hp).1
        kernels := fun segments kernelEnd hloaded =>
          h.kernels segments kernelEnd ((List.mem_cons.1 hloaded).resolve_left (by simp))
        sound := h.sound.cons_other (by simp) }
    rw [hlive, List.mem_filter, decide_eq_true_iff] at hp
    exact (h.positions k mark _ hk hmoment p hp.1 hp.2).trans (htarget ▸ Nat.le_max_left ..)
  · have hstate : (s.resetTo k target).heapState = { s.heapState with
        slots := (s.resetTo k target).heapState.slots } := by
      simp only [Sys.resetTo, Sys.heapState, if_neg hlt, Nat.min_eq_right (Nat.le_of_not_lt hlt)]
    rw [hstate]
    exact ⟨h.region, h.base, h.kernelEnd, h.limit, h.live, h.marked, h.positions, h.kernels, h.sound⟩

theorem HeapOrdered.loaded {s : Sys} (h : HeapOrdered dram marks s.heapState)
    {segments : List Elf.LoadSegment} {kernelEnd : ℕ} (hmay : s.MayLoad segments kernelEnd) :
    HeapOrdered dram marks (s.loaded segments kernelEnd).heapState := by
  have hdram : s.dev.dram = dram := h.region
  have hgrows : s.dev.kernelEnd ≤ kernelEnd :=
    hmay.le (hdram ▸ (h.kernelEnd.trans h.limit : s.dev.kernelEnd ≤ dram.base + dram.size))
  refine
    { region := hdram
      base := h.base.trans hgrows
      kernelEnd := Nat.le_max_right ..
      limit := Nat.max_le.2 ⟨h.limit, hdram ▸ hmay.within⟩
      live := fun p hp => (h.live p hp).trans (Nat.le_max_left ..)
      marked := h.marked
      positions := h.positions
      kernels := fun segments' kernelEnd' hloaded seg hseg => ?_
      sound := h.sound.cons_other (by simp) }
  rcases List.mem_cons.1 hloaded with heq | hloaded
  · cases heq
    obtain ⟨seg, hmem, rfl⟩ := List.mem_map.1 hseg
    exact hmay.covers seg hmem
  · exact (h.kernels segments' kernelEnd' hloaded seg hseg).trans hgrows

theorem heapSteady_ordered (dram : DramInfo) :
    HeapSteady (fun _ => True) (fun _ => True) (fun _ => True)
      fun marks s => HeapOrdered dram marks s.heapState :=
  heapSteady_of_heapState (fun _ _ _ _ h hhands => h.allocated hhands)
    (fun _ _ _ _ h hhands => by
      obtain ⟨h₁, h₂, h₃, h₄, h₅, h₆, h₇, h₈, h₉⟩ := h.allocated hhands
      exact ⟨h₁, h₂, h₃, h₄, h₅, h₆, h₇, h₈, h₉⟩)
    (fun _ _ h => h.markedNow) (fun _ _ _ _ hk h => h.reset hk)
    fun _ _ _ _ _ _ h hmay => h.loaded hmay

theorem Session.run_ordered (setup : Setup) (calls : List Call) :
    HeapOrdered setup.dram ((init setup).run calls).marks ((init setup).run calls).sys.heapState :=
  ((heapSteady_ordered setup.dram).steadfast.run (s := init setup)
    ⟨⟨rfl, le_rfl, le_rfl, Nat.le_add_right .., by simp [init, Sys.init, Sys.heapState, liveRegions],
      rfl, by simp [init, Sys.init, Sys.heapState, liveRegions],
      by simp [init, Sys.init, Sys.heapState], by simp [AllSound, init, Sys.init, Sys.heapState]⟩,
      fun _ => rfl, by simp [init]⟩ fun call _ => call.builds_any _).sys

/-! ## Live regions are apart -/

/-- What is live is still live when only later events are taken away. -/
theorem mem_liveRegions_of_append {newer older : List HeapEvent} {p : ℕ × DeviceRegion}
    (h : p ∈ liveRegions (newer ++ older)) (hlt : p.1 < older.length) : p ∈ liveRegions older := by
  induction newer with
  | nil => exact h
  | cons e newer ih =>
    cases e with
    | allocated region =>
      rcases List.mem_cons.1 h with rfl | h
      · have hlen : (newer ++ older).length = newer.length + older.length := List.length_append
        change (newer ++ older).length < older.length at hlt
        omega
      · exact ih h
    | marked => exact ih h
    | reset k => exact ih (List.mem_filter.1 h).1
    | loaded _ _ => exact ih h

/-- A live region was handed out. -/
theorem exists_of_mem_liveRegions {heap : List HeapEvent} {p : ℕ × DeviceRegion}
    (h : p ∈ liveRegions heap) :
    ∃ newer older, heap = newer ++ .allocated p.2 :: older ∧ older.length = p.1 := by
  induction heap with
  | nil => simp [liveRegions] at h
  | cons e heap ih =>
    have hstep : p ∈ liveRegions heap →
        ∃ newer older, e :: heap = newer ++ .allocated p.2 :: older ∧ older.length = p.1 := by
      intro h
      obtain ⟨newer, older, rfl, hlen⟩ := ih h
      exact ⟨e :: newer, older, rfl, hlen⟩
    cases e with
    | allocated region =>
      rcases List.mem_cons.1 h with rfl | h
      · exact ⟨[], heap, rfl, rfl⟩
      · exact hstep h
    | marked => exact hstep h
    | reset k => exact hstep (List.mem_filter.1 h).1
    | loaded _ _ => exact hstep h

/-- The older of two live regions ends before the newer one, or is in other lines at least. -/
theorem AllSound.apart {dram : DramInfo} {heap : List HeapEvent} (h : AllSound dram heap)
    {p q : ℕ × DeviceRegion} (hp : p ∈ liveRegions heap) (hq : q ∈ liveRegions heap)
    (hlt : q.1 < p.1) : ApartLines p.2.addr p.2.endAddr q.2.addr q.2.endAddr := by
  obtain ⟨newer, older, rfl, hlen⟩ := exists_of_mem_liveRegions hp
  refine (h newer p.2 older rfl).regions q ?_
  have hq' : q ∈ liveRegions ((newer ++ [.allocated p.2]) ++ older) := by
    rwa [List.append_assoc, List.singleton_append]
  exact mem_liveRegions_of_append hq' (hlen ▸ hlt)

/-! ## Main result -/

/-- How an allocation ends. -/
inductive HandsOut (dram : DramInfo) (s : Sys) : Outcome Error DeviceRegion × Sys → Prop where
  | ok (region : DeviceRegion) : Sound dram s.heap region →
      HandsOut dram s (.ok region, s.allocated region)
  | err (e : Error) : HandsOut dram s (.err e, s)

/-- An allocation whose sums do not overflow. -/
theorem alloc_eq {s : Sys} (hnext : s.dev.next + allocAlignment s.dev.dram < 2 ^ 64)
    (hend : s.dev.dram.base + s.dev.dram.size < 2 ^ 64) (size : ℕ) :
    alloc size s =
      let start := alignUp s.dev.next (allocAlignment s.dev.dram)
      let stop := s.dev.dram.base + s.dev.dram.size
      if start > stop ∨ size > stop - start then
        (.err (.outOfMemory size (dramAvailable s.dev)), s)
      else
        (.ok ⟨start, size⟩, s.allocated ⟨start, size⟩) := by
  have hstart : alignUpChecked s.dev.next (allocAlignment s.dev.dram) s =
      (.ok (alignUp s.dev.next (allocAlignment s.dev.dram)), s) := by
    change Prog.bind (u64Add _ _) _ s = _
    rw [Prog.bind, u64Add, if_pos hnext]
    rfl
  have hstop : dramEnd s.dev.dram s = (.ok (s.dev.dram.base + s.dev.dram.size), s) := by
    rw [dramEnd, u64Add, if_pos hend]
    rfl
  change Prog.bind (alignUpChecked _ _) _ s = _
  rw [Prog.bind, hstart]
  change Prog.bind (dramEnd _) _ s = _
  rw [Prog.bind, hstop]
  dsimp only
  split <;> rfl

/-- Every region that was ever handed out was handed out soundly, and so will the next one be;
where there is none the allocator is left as it was. -/
theorem allocations_sound (setup : Setup) (calls : List Call)
    (hfits : setup.dram.base + setup.dram.size + allocAlignment setup.dram < 2 ^ 64) :
    let s := ((Session.init setup).run calls).sys
    AllSound setup.dram s.heap ∧ ∀ size, HandsOut setup.dram s (alloc size s) := by
  intro s
  have h : HeapOrdered setup.dram _ s.heapState := Session.run_ordered setup calls
  refine ⟨h.sound, fun size => ?_⟩
  have hdram : s.dev.dram = setup.dram := h.region
  have hlimit : s.dev.next ≤ setup.dram.base + setup.dram.size := h.limit
  have hnext : s.dev.next + allocAlignment s.dev.dram < 2 ^ 64 := by
    rw [hdram]
    omega
  rw [alloc_eq hnext (by rw [hdram]; omega)]
  dsimp only
  split
  · exact .err _
  · refine .ok _ (h.sound_of_hands ⟨rfl, rfl, hnext, by rw [hdram]; omega, ?_⟩)
    simp only [DeviceRegion.endAddr]
    omega

/-- A mark, two regions, a reset, and a region again. -/
def reclaiming : List Call := [.alloc 100, .allocMark, .alloc 100, .resetTo 0, .alloc 1]

/-- A device with 4 KiB of memory at 4096. -/
def smallDram : Setup where
  machine := ⟨true, true, true, true, false, fun _ mem => mem, 256⟩
  mem := fun _ => 0
  address := 0
  dram := ⟨4096, 4096, 0, 0, 1⟩
  defaultTimeout := 0
  script := []

theorem allocations_sound_reclaiming :
    liveRegions ((Session.init smallDram).run reclaiming).sys.heap =
        [(4, ⟨4224, 1⟩), (0, ⟨4096, 100⟩)] ∧
      AllSound smallDram.dram ((Session.init smallDram).run reclaiming).sys.heap :=
  ⟨by decide +kernel, (allocations_sound smallDram reclaiming (by decide +kernel)).1⟩

end EtSoc

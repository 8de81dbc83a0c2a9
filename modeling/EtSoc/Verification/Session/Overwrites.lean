import EtSoc.Verification.Session.Allocations
import EtSoc.Verification.Session.Images

/-! # What a load does not write

A region keeps clear of every load as long as no load has reserved memory past its start. -/

namespace EtSoc

open Function Program

/-! ## Guarded regions -/

/-- A live region past whose start no load has reserved memory since it was handed out. -/
def Guarded (heap : List HeapEvent) (p : ℕ × DeviceRegion) : Prop :=
  p ∈ liveRegions heap ∧ ∀ newer segments kernelEnd older,
    heap = newer ++ .loaded segments kernelEnd :: older → p.1 < older.length → kernelEnd ≤ p.2.addr

variable {heap : List HeapEvent} {e : HeapEvent} {p : ℕ × DeviceRegion} {dram : DramInfo}
  {marks : List AllocMark}

theorem Guarded.older (h : Guarded (e :: heap) p) (hp : p ∈ liveRegions heap) : Guarded heap p := by
  refine ⟨hp, fun newer segments kernelEnd older heq => ?_⟩
  exact h.2 (e :: newer) segments kernelEnd older (by rw [heq, List.cons_append])

/-- The guarded regions lie between the end of the kernels and the bump pointer. -/
structure HeapGuarded (dram : DramInfo) (marks : List AllocMark) (h : HeapState) : Prop where
  ordered : HeapOrdered dram marks h
  above : ∀ p, Guarded h.heap p → h.kernelEnd ≤ p.2.addr
  fits : ∀ p ∈ liveRegions h.heap, dram.base + dram.size < 2 ^ 64

theorem HeapGuarded.allocated {s : Sys} (h : HeapGuarded dram marks s.heapState) {size : ℕ}
    {region : DeviceRegion} (hhands : s.Hands size region) :
    HeapGuarded dram marks (s.allocated region).heapState := by
  have hdram : s.dev.dram = dram := h.ordered.region
  refine ⟨h.ordered.allocated hhands, fun p hp => ?_, fun _ _ => hdram ▸ hhands.limit⟩
  rcases List.mem_cons.1 hp.1 with rfl | hlive
  · exact h.ordered.kernelEnd.trans hhands.placed.1
  · exact h.above p (hp.older hlive)

theorem HeapGuarded.reset {s : Sys} (h : HeapGuarded dram marks s.heapState) {k : ℕ}
    {mark : AllocMark} (hk : marks[k]? = some mark) :
    HeapGuarded dram marks (s.resetTo k (max mark.position s.dev.kernelEnd)).heapState := by
  have hordered := h.ordered.reset hk
  generalize max mark.position s.dev.kernelEnd = target at hordered ⊢
  refine ⟨hordered, ?_, ?_⟩
  all_goals
    simp only [Sys.heapState, Sys.resetTo]
    split
  · exact fun p hp => h.above p (hp.older (List.mem_filter.1 hp.1).1)
  · exact h.above
  · exact fun p hp => h.fits p (List.mem_filter.1 hp).1
  · exact h.fits

theorem HeapGuarded.loaded {s : Sys} (h : HeapGuarded dram marks s.heapState)
    {segments : List Elf.LoadSegment} {kernelEnd : ℕ} (hmay : s.MayLoad segments kernelEnd) :
    HeapGuarded dram marks (s.loaded segments kernelEnd).heapState :=
  ⟨h.ordered.loaded hmay, fun p hp => hp.2 [] _ _ _ rfl (liveRegions_lt p hp.1), h.fits⟩

theorem heapSteady_guarded (dram : DramInfo) :
    HeapSteady (fun _ => True) (fun _ => True) (fun _ => True)
      fun marks s => HeapGuarded dram marks s.heapState :=
  heapSteady_of_heapState (fun _ _ _ _ h hhands => h.allocated hhands)
    (fun _ s _ region h hhands => by
      have h' := h.allocated hhands
      obtain ⟨h₁, h₂, h₃, h₄, h₅, h₆, h₇, h₈, h₉⟩ := h'.ordered
      exact ⟨⟨h₁, h₂, h₃, h₄, h₅, h₆, h₇, h₈, h₉⟩, h'.above, h'.fits⟩)
    (fun _ _ h => ⟨h.ordered.markedNow, fun p hp => h.above p (hp.older hp.1), h.fits⟩)
    (fun _ _ _ _ hk h => h.reset hk) fun _ _ _ _ _ _ h hmay => h.loaded hmay

theorem Session.run_guarded (setup : Setup) (calls : List Call) :
    HeapGuarded setup.dram ((init setup).run calls).marks ((init setup).run calls).sys.heapState :=
  ((heapSteady_guarded setup.dram).steadfast.run (s := init setup)
    ⟨⟨run_ordered setup [], fun _ hp => absurd hp.1 List.not_mem_nil,
      fun _ hp => absurd hp List.not_mem_nil⟩, fun _ => rfl, by simp [init]⟩
    fun call _ => call.builds_any _).sys

/-- No segment that the loader admits has a byte in a guarded region. -/
theorem HeapGuarded.apart {s : Sys} (h : HeapGuarded dram marks s.heapState)
    (hp : Guarded s.heap p) {seg : Elf.LoadSegment}
    (hseg : Admitted s.dev.dram s.dev.kernelEnd s.dev.next seg) {x : ℕ} (hx : seg.range x) :
    ¬(p.2.addr ≤ x ∧ x < p.2.endAddr) := by
  rintro ⟨hlo, hhi⟩
  have habove : s.dev.kernelEnd ≤ p.2.addr := h.above p hp
  have hbelow : p.2.endAddr ≤ s.dev.next := h.ordered.live p hp.1
  obtain ⟨hstart, hstop⟩ := hx
  exact hseg.apart ⟨by omega, by omega, by omega⟩

/-! ## The commands of a load -/

/-- All that the command may change lies in `R`. -/
structure Command.Confined (R : ℕ → Prop) (cmd : Command) : Prop where
  launch : cmd.launch? = none
  nodes : ∀ n ∈ cmd.nodes, ∀ x, n.devicePhyAddr ≤ x → x < n.devicePhyAddr + n.size → R x

theorem Command.Confined.of_mayWrite {R : ℕ → Prop} {machine : Machine} {a : Accepted} {x : ℕ}
    (h : a.cmd.Confined R) (hw : machine.MayWrite a x) : R x := by
  rcases hw with ⟨-, n, hn, hlo, hhi⟩ | ⟨launch, hlaunch, -⟩
  · exact h.nodes n hn x hlo hhi
  · simp [h.launch] at hlaunch

/-- The commands taken after `acc` change nothing outside `R`. -/
def Confining (R : ℕ → Prop) (acc : List Accepted) (s : Sys) : Prop :=
  ∃ own, s.world.accepted = acc ++ own ∧ ∀ a ∈ own, a.cmd.Confined R

variable {R : ℕ → Prop} {acc : List Accepted}

theorem deaf_confining (R : ℕ → Prop) (acc : List Accepted) :
    Deaf (fun _ => True) (·.Confined R) (Confining R acc) where
  waiting := trivial
  panics := fun _ _ => trivial
  act := fun s _ ds ⟨own, hacc, hown⟩ => ⟨own, (s.world.steps_accepted ds).trans hacc, hown⟩
  map := fun _ _ _ _ h => h
  fill := fun _ _ _ h => h
  unmapped := fun _ _ h => h
  staging := fun _ _ _ h => h
  taken := fun _ _ _ h => h
  tags := fun _ _ _ _ _ h => h
  log := fun _ _ h => h
  cut := fun _ _ h => h
  pop := fun _ _ h => h
  offer := fun _ _ _ h => h
  accept := by
    rintro s sqIndex descFlags cmd hcmd ⟨own, hacc, hown⟩
    refine ⟨own ++ [⟨sqIndex, descFlags, cmd, s.world.host⟩], ?_, fun a ha => ?_⟩
    · exact (congrArg (· ++ _) hacc).trans (List.append_assoc ..)
    · rcases List.mem_append.1 ha with ha | ha
      · exact hown a ha
      · rwa [List.mem_singleton.1 ha]
  peak := fun _ _ _ h => h

theorem unpending_confining (R : ℕ → Prop) (acc : List Accepted) : Unpending (Confining R acc) :=
  fun _ _ h => h

/-- A chunk is written by commands that change nothing outside its target. -/
theorem pushDmaStaged_confining {host : DmaHostBuffer} {len addr : ℕ} {opts : DmaOptions}
    (hR : ∀ x, addr ≤ x → x < addr + len → R x) :
    Triple (Confining R acc) (pushDmaStaged .write host len addr opts)
      (Always (fun _ => True) (Confining R acc)) := by
  have hdeaf := deaf_confining R acc
  refine .read_bind fun dev => .bind ((hdeaf.maxListNodes fun _ _ h => h).pre fun _ h => h.1)
    fun maxNodes => pushStagedFrom_triple (P := fun _ => Confining R acc) (by omega)
      (fun _ s _ hs => ⟨trivial, hs⟩) (fun off nodes off' hnodes _ hle => ?_) len 0 0 [] (by omega)
      (by omega) (fun _ => rfl) ⟨rfl, by simp, by simp⟩ fun hpos => hpos
  refine hdeaf.pushList (unpending_confining R acc) (.inr trivial) fun tag cmd hcmd => ?_
  have hlist := (buildDmaList_eq_some hcmd opts.sqIndex fun _ _ => 0).2
  refine ⟨hlist.launch?_eq, fun n hn x hlo hhi => ?_⟩
  rw [hlist.nodes_eq] at hn
  obtain ⟨-, hdevice, -, hend⟩ := hnodes.consecutive.mem hn
  exact hR x (by omega) (by omega)

theorem lending_confining (R : ℕ → Prop) (acc : List Accepted) :
    Lending (fun _ => True) (Confining R acc) where
  toAloof := (deaf_confining R acc).toAloof
  await := (deaf_confining R acc).awaitDma (unpending_confining R acc)
  abandonAll := (deaf_confining R acc).abandonAll (unpending_confining R acc)

theorem memcpyH2d_confining {src : List UInt8} {dst : ℕ}
    (hR : ∀ x, dst ≤ x → x < dst + src.length → R x) :
    Triple (Rested (Confining R acc)) (memcpyH2d src dst)
      (Calls (fun _ => True) (Confining R acc)) :=
  (lending_confining R acc).h2dStaged (fun _ len addr hlo hhi => pushDmaStaged_confining
    fun x hx hx' => hR x (by omega) (by have := hhi (by omega); omega)) _

/-- A load that succeeds was admitted, and its commands change nothing outside the segments. -/
theorem loadKernel_confining {s : Sys} (hpending : s.pending = []) {image : List UInt8}
    (hlen : image.length < 2 ^ 64) : Triple (· = s) (loadKernel image) ⟨fun _ s' => ∃ elf,
      Elf.parse image = .ok elf ∧
      (∀ seg ∈ elf.segments, Admitted s.dev.dram s.dev.kernelEnd s.dev.next seg) ∧
      Confining (ranges elf.segments) s.world.accepted s', fun _ _ => True, fun _ _ => True⟩ := by
  refine .bind (R := fun elf s' => Elf.parse image = .ok elf ∧ s' = s)
    (.ofExcept (fun _ h _ hs => ⟨h, hs⟩) fun _ _ _ _ => trivial) fun elf => .and_pre fun hparse =>
      .read_bind fun dev => .intro (p := dev = s.dev) (fun _ hs => by rw [← hs.2, hs.1]) fun hdev => ?_
  subst hdev
  refine .bind (u64Add_triple fun _ _ => trivial) fun regionEnd => .and_pre fun ⟨hregion, _⟩ => ?_
  subst hregion
  refine .bind (checkSegments_triple elf.segments (fun _ _ _ _ _ => trivial) (fun _ _ _ => trivial) _)
    fun occupied => .and_pre fun hadmitted => ?_
  obtain ⟨hformed, hkernel⟩ := (Elf.parse_eq_ok hlen).1 hparse
  have hsegs : Elf.loadable image = elf.segments := by rw [hkernel]
  have hload : Triple (Rested (Confining (ranges elf.segments) s.world.accepted))
      (loadSegments image elf.segments)
      (Calls (fun _ => True) (Confining (ranges elf.segments) s.world.accepted)) := by
    refine (deaf_confining _ _).toRemote.loadSegments image fun seg hseg src dst hlo hhi =>
      memcpyH2d_confining fun x hx hx' => ⟨seg, hseg, by omega, ?_⟩
    have hsize := (hformed.valid seg (hsegs ▸ hseg)).size
    omega
  refine .bind (hload.conseq (fun t ht => ?_) (fun _ _ h => h) (fun _ _ _ => trivial)
    fun _ _ => trivial) fun _ => .bind (alignUpChecked_triple fun _ _ => trivial) fun aligned =>
      .and_pre fun _ t ht => ⟨elf, hparse, hadmitted.1, ht.1⟩
  obtain ⟨rfl, -⟩ := ht
  exact ⟨⟨[], (List.append_nil _).symm, by simp⟩, hpending⟩

/-- An image with a segment that is not admitted is refused before anything is done. -/
theorem loadKernel_refused {s : Sys} {image : List UInt8} {elf : Elf.KernelImage}
    {seg : Elf.LoadSegment} (hlen : image.length < 2 ^ 64) (hparse : Elf.parse image = .ok elf)
    (hfits : s.dev.dram.base + s.dev.dram.size < 2 ^ 64) (hseg : seg ∈ elf.segments)
    (hnot : ¬Admitted s.dev.dram s.dev.kernelEnd s.dev.next seg) :
    Triple (· = s) (loadKernel image) ⟨fun _ _ => False,
      fun e s' => (∃ message, e = .limit message) ∧ s' = s, fun _ _ => False⟩ := by
  obtain ⟨hformed, hkernel⟩ := (Elf.parse_eq_ok hlen).1 hparse
  have hsegs : Elf.loadable image = elf.segments := by rw [hkernel]
  refine .bind (R := fun elf' s' => elf' = elf ∧ s' = s) (.ofExcept (fun elf' h s' hs => ⟨?_, hs⟩)
    fun e he => ?_) fun elf' => .and_pre fun helf => .read_bind fun dev => .intro
      (p := dev = s.dev) (fun _ hs => by rw [← hs.2, hs.1]) fun hdev => ?_
  · exact Except.ok.inj (h.symm.trans hparse)
  · simp [hparse] at he
  subst helf hdev
  refine .bind (R := fun regionEnd s' => regionEnd = s.dev.dram.base + s.dev.dram.size ∧ s' = s)
    (.ite (fun _ => .pure fun _ hs => ⟨rfl, hs.1⟩) fun hge => absurd hfits hge) fun regionEnd =>
      .and_pre fun hregion => ?_
  subst hregion
  refine .bind (checkSegments_triple elf'.segments (fun seg' hseg' hge => absurd ?_ hge)
    (fun message _ hs => ⟨⟨message, rfl⟩, hs⟩) _) fun occupied => .and_pre fun hadmitted =>
      absurd (hadmitted.1 seg hseg) hnot
  exact (hformed.valid seg' (hsegs ▸ hseg')).inMemory

/-! ## Main result -/

/-- Loading the image does not touch the region: what it gives the device changes no byte of
the region, and an image with a byte there is refused before anything is done. -/
structure Spares (image : List UInt8) (s : Sys) (region : DeviceRegion) : Prop where
  writes : ∀ kernel s', loadKernel image s = (.ok kernel, s') → ∃ own,
    s'.world.accepted = s.world.accepted ++ own ∧ ∀ a ∈ own, ∀ x, region.addr ≤ x →
      x < region.endAddr → ¬s.world.machine.MayWrite a x
  refused : ∀ elf, Elf.parse image = .ok elf → ∀ seg ∈ elf.segments, ∀ x, seg.range x →
    region.addr ≤ x → x < region.endAddr →
    ∃ message, loadKernel image s = (.err (.limit message), s)

namespace Session

/-- Whatever came before, a load touches no region but those past whose start an earlier load
has reserved memory. -/
theorem loads_spare (setup : Setup) (calls : List Call)
    (hstop : ((init setup).run calls).stopped = none) (image : List UInt8)
    (hlen : image.length < 2 ^ 63) (p : ℕ × DeviceRegion)
    (hp : Guarded ((init setup).run calls).sys.heap p) :
    Spares image ((init setup).run calls).sys p.2 := by
  have hlen : image.length < 2 ^ 64 := hlen.trans (by decide)
  have hguarded := run_guarded setup calls
  have hpending := ((heapSteady_guarded setup.dram).steadfast.run (s := init setup)
    ⟨run_guarded setup [], fun _ => rfl, by simp [init]⟩ fun call _ => call.builds_any _).pending hstop
  generalize ((init setup).run calls).sys = s at hp hguarded hpending ⊢
  refine ⟨fun kernel s' hrun => ?_, fun elf hparse seg hseg x hx hlo hhi => ?_⟩
  · obtain ⟨elf, -, hadmitted, own, hacc, hown⟩ := (loadKernel_confining hpending hlen).of_ok rfl hrun
    refine ⟨own, hacc, fun a ha x hlo hhi hwrite => ?_⟩
    obtain ⟨seg, hseg, hx⟩ := (hown a ha).of_mayWrite hwrite
    exact hguarded.apart hp (hadmitted seg hseg) hx ⟨hlo, hhi⟩
  · have hdram : s.dev.dram = setup.dram := hguarded.ordered.region
    have h := loadKernel_refused hlen hparse (hdram ▸ hguarded.fits p hp.1) hseg
      (fun hadmitted => hguarded.apart hp hadmitted hx ⟨hlo, hhi⟩) s rfl
    generalize loadKernel image s = r at h ⊢
    obtain ⟨outcome, s'⟩ := r
    cases outcome with
    | err e =>
      obtain ⟨⟨message, rfl⟩, rfl⟩ := h
      exact ⟨message, rfl⟩
    | _ => exact h.elim

/-- The segment of `sevens`, at address 4096. -/
def elsewhere : List UInt8 := (sevens.set 25 16).set 81 16

/-- A device that serves two loads of two commands each. -/
def twice : Setup := { prompt with
  script := granted 5 ++
    [⟨[.start 0, .copy 0 0, .copy 0 0, .answer 0 (complete 0), .start 1, .copy 1 0,
        .answer 1 (complete 1)], .response 0 0⟩, ⟨[], .response 1 0⟩] ++ granted 3 ++
    [⟨[.start 2, .copy 2 0, .copy 2 0, .answer 2 (complete 2), .start 3, .copy 3 0,
        .answer 3 (complete 3)], .response 2 0⟩, ⟨[], .response 3 0⟩] }

/-- A region above the kernel that was loaded. -/
def above : List Call := [.loadKernel elsewhere (by decide +kernel), .alloc 64]

/-- The segment of `sevens`, where that region is. -/
def colliding : List UInt8 := (elsewhere.set 24 64).set 80 64

theorem parse_colliding : Elf.parse colliding = .ok ⟨4160, [⟨120, 4160, 40, 40⟩]⟩ := by
  decide +kernel

theorem loads_spare_above : ((init twice).run above).sys.dev.next = 4224 ∧
    Spares sevens ((init twice).run above).sys ⟨4160, 64⟩ ∧
    ∃ message, loadKernel colliding ((init twice).run above).sys =
      (.err (.limit message), ((init twice).run above).sys) := by
  have hguarded : Guarded ((init twice).run above).sys.heap (1, ⟨4160, 64⟩) := by
    have hlength : ((init twice).run above).sys.heap.length = 2 := by decide +kernel
    refine ⟨by decide +kernel, fun newer segments kernelEnd older heq hlt => ?_⟩
    have := congrArg List.length heq
    rw [hlength, List.length_append, List.length_cons] at this
    omega
  refine ⟨by decide +kernel, loads_spare twice above (by decide +kernel) sevens (by decide +kernel)
    _ hguarded, ?_⟩
  exact (loads_spare twice above (by decide +kernel) colliding (by decide +kernel) _
    hguarded).refused _ parse_colliding _ List.mem_cons_self 4160 (by decide) (by decide) (by decide)

/-- A region below a kernel that is loaded later. -/
def below : List Call := [.alloc 64, .loadKernel elsewhere (by decide +kernel)]

/-- The region at the base of the DRAM is live, and the second load writes it. -/
theorem not_loads_spare_below : ((init twice).run below).stopped = none ∧ sevens.length < 2 ^ 63 ∧
    (0, ⟨0, 64⟩) ∈ liveRegions ((init twice).run below).sys.heap ∧
    ¬Spares sevens ((init twice).run below).sys ⟨0, 64⟩ := by
  refine ⟨by decide +kernel, by decide +kernel, by decide +kernel, fun h => ?_⟩
  obtain ⟨kernel, s', hrun⟩ : ∃ kernel s', loadKernel sevens ((init twice).run below).sys =
    (.ok kernel, s') := Prog.eq_ok (by decide +kernel)
  obtain ⟨own, hacc, hown⟩ := h.writes kernel s' hrun
  have hlength : ((init twice).run below).sys.world.accepted.length = 2 := by decide +kernel
  have hwrite : ∃ a ∈ (loadKernel sevens ((init twice).run below).sys).2.world.accepted.drop 2,
      a.cmd.isWrite = true ∧ ∃ n ∈ a.cmd.nodes, n.devicePhyAddr ≤ 0 ∧ 0 < n.devicePhyAddr + n.size := by
    decide +kernel
  rw [hrun, hacc, List.drop_left' hlength] at hwrite
  obtain ⟨a, ha, hstores⟩ := hwrite
  exact hown a ha 0 (Nat.le_refl _) (by decide) (.inl hstores)

end Session

end EtSoc

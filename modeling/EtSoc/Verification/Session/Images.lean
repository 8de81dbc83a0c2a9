import EtSoc.Verification.Session.Deliveries
import Mathlib.Data.List.Pairwise

/-! # What a load leaves in device memory -/

namespace EtSoc

open Function Program

variable {image : List UInt8} {segs : List Elf.LoadSegment} {seg : Elf.LoadSegment}

/-! ## The bytes of an image -/

/-- The addresses of a segment. -/
def Elf.LoadSegment.range (seg : Elf.LoadSegment) (x : ℕ) : Prop :=
  seg.vaddr ≤ x ∧ x < seg.vaddr + seg.memSize

instance (seg : Elf.LoadSegment) (x : ℕ) : Decidable (seg.range x) :=
  inferInstanceAs (Decidable (_ ∧ _))

/-- The addresses of the segments. -/
def ranges (segs : List Elf.LoadSegment) (x : ℕ) : Prop := ∃ seg ∈ segs, seg.range x

/-- What the segments put at a device address. -/
def imageData (image : List UInt8) (segs : List Elf.LoadSegment) : Memory := fun x =>
  match segs.find? (·.range x) with
  | some seg => segmentData image seg x
  | none => 0

theorem imageData_eq (hdisjoint : segs.Pairwise Elf.Disjoint) (hseg : seg ∈ segs) {x : ℕ}
    (hx : seg.range x) : imageData image segs x = segmentData image seg x := by
  unfold imageData
  split
  · rename_i t ht
    have hmem := List.mem_of_find?_eq_some ht
    have hrange : t.range x := by simpa using List.find?_some ht
    by_cases heq : t = seg
    · rw [heq]
    · have : Std.Symm Elf.Disjoint := ⟨fun _ _ h y hy => h y hy.symm⟩
      exact absurd ⟨hrange, hx⟩ (hdisjoint.forall hmem hseg heq x)
  · rename_i hnone
    have := List.find?_eq_none.1 hnone seg hseg
    simp [hx] at this

theorem Loads.stores {a : Accepted} (hdisjoint : segs.Pairwise Elf.Disjoint)
    (h : Loads (storing (ranges segs) (imageData image segs)) image segs a) :
    Stores (ranges segs) (imageData image segs) a := by
  obtain ⟨seg, hseg, h⟩ := h
  exact (h.mono (Nat.le_refl _) (Nat.le_refl _) fun x hlo hhi =>
    (imageData_eq hdisjoint hseg ⟨hlo, hhi⟩).symm).stores fun x hlo hhi => ⟨seg, hseg, hlo, hhi⟩

theorem DeliversAll.cover {E : Env} {own : List Accepted} (h : DeliversAll E image segs own) {x : ℕ}
    (hx : ranges segs x) : ∃ a ∈ own, ∃ n ∈ a.cmd.nodes,
      n.devicePhyAddr ≤ x ∧ x < n.devicePhyAddr + n.size := by
  induction h with
  | nil => simp [ranges] at hx
  | cons h _ ih =>
    obtain ⟨seg, hseg, hlo, hhi⟩ := hx
    rcases List.mem_cons.1 hseg with rfl | hseg
    · obtain ⟨a, ha, n, hn, hspan⟩ := h.transfers.cover (x - seg.vaddr) (by omega)
      rw [show seg.vaddr + (x - seg.vaddr) = x by omega] at hspan
      exact ⟨a, List.mem_append_left _ ha, n, hn, hspan⟩
    · obtain ⟨a, ha, hcover⟩ := ih ⟨seg, hseg, hlo, hhi⟩
      exact ⟨a, List.mem_append_right _ ha, hcover⟩

theorem DeliversAll.storesAll {own : List Accepted} (hdisjoint : segs.Pairwise Elf.Disjoint)
    (h : DeliversAll (storing (ranges segs) (imageData image segs)) image segs own) :
    StoresAll (ranges segs) (imageData image segs) own :=
  ⟨fun a ha => (h.loads a ha).stores hdisjoint, fun _ => h.cover⟩

/-- Between the two worlds, the segments were placed in device memory, and nothing else
changed, as far as the commands before have no part in it. -/
structure Placed (image : List UInt8) (segs : List Elf.LoadSegment) (w w' : World) : Prop where
  file : ∀ seg ∈ segs, ∀ k < seg.fileSize, w.Settled (seg.vaddr + k) →
    image[seg.fileOffset + k]? = some (w'.mem (seg.vaddr + k))
  tail : ∀ seg ∈ segs, ∀ k, seg.fileSize ≤ k → k < seg.memSize → w.Settled (seg.vaddr + k) →
    w'.mem (seg.vaddr + k) = 0
  others : ∀ x, ¬ranges segs x → w.Settled x → w'.mem x = w.mem x
  own : ∃ own, Performed w w' own ∧ ∀ a ∈ own, ∀ x, w.machine.MayWrite a x → ranges segs x

theorem Stored.placed {w w' : World} (h : Stored (ranges segs) (imageData image segs) w w')
    (hvalid : ∀ seg ∈ segs, Elf.Valid image seg) (hdisjoint : segs.Pairwise Elf.Disjoint) :
    Placed image segs w w' := by
  have hmem : ∀ seg ∈ segs, ∀ k < seg.memSize, w.Settled (seg.vaddr + k) →
      w'.mem (seg.vaddr + k) = segmentData image seg (seg.vaddr + k) := fun seg hseg k hk hset => by
    have hx : seg.range (seg.vaddr + k) := ⟨by omega, by omega⟩
    rw [h.inside _ ⟨seg, hseg, hx⟩ hset, imageData_eq hdisjoint hseg hx]
  refine ⟨fun seg hseg k hk hset => ?_, fun seg hseg k hlo hhi hset => ?_, h.outside, h.own⟩
  · have hsize := (hvalid seg hseg).size
    have hfile := (hvalid seg hseg).inFile
    rw [hmem seg hseg k (by omega) hset, segmentData, if_pos (by omega),
      show seg.fileOffset + (seg.vaddr + k - seg.vaddr) = seg.fileOffset + k by omega,
      List.getD_eq_getElem _ _ (by omega), List.getElem?_eq_getElem (by omega)]
  · rw [hmem seg hseg k hhi hset, segmentData, if_neg (by omega)]

/-! ## Rejections -/

/-- The parser rejects the image, or one of the segments is not admitted. -/
def Rejected (image : List UInt8) (dev : Device) : Prop :=
  ∀ elf, Elf.parse image = .ok elf →
    ∃ seg ∈ elf.segments, ¬Admitted dev.dram dev.kernelEnd dev.next seg

/-- A rejected image changes nothing. -/
theorem loadKernel_rejected {s : Sys} (hrej : Rejected image s.dev) :
    Triple (· = s) (loadKernel image) ⟨fun _ _ => False, fun _ s' => s' = s, fun _ s' => s' = s⟩ := by
  refine .bind (R := fun elf s' => Elf.parse image = .ok elf ∧ s' = s)
    (.ofExcept (fun _ h _ hs => ⟨h, hs⟩) fun _ _ _ hs => hs) fun elf => .and_pre fun hparse =>
      .read_bind fun dev => .intro (p := dev = s.dev) (fun _ hs => by rw [← hs.2, hs.1]) fun hdev => ?_
  subst hdev
  obtain ⟨seg, hseg, hnot⟩ := hrej elf hparse
  refine .bind (u64Add_triple fun _ hs => hs.1) fun regionEnd => .and_pre fun ⟨hregion, _⟩ => ?_
  subst hregion
  exact .bind (checkSegments_triple elf.segments (fun _ _ _ _ hs => hs.1) (fun _ _ hs => hs.1) _)
    fun occupied => .and_pre fun hadmitted => absurd (hadmitted.1 seg hseg) hnot

/-! ## Sessions -/

namespace Session

variable {s : Session} {sys' : Sys} {kernel : LoadedKernel}

/-- What a load that succeeds leaves. -/
structure Loaded (image : List UInt8) (s s' : Sys) (kernel : LoadedKernel)
    (elf : Elf.KernelImage) : Prop where
  parsed : Elf.parse image = .ok elf
  placed : Placed image elf.segments s.world s'.world
  entry : kernel.codeStartAddress = elf.entry
  inSegment : elf.segments = [] ∨ ranges elf.segments kernel.codeStartAddress
  covers : ∀ seg ∈ elf.segments, seg.vaddr + seg.memSize ≤ s'.dev.kernelEnd
  kernelEnd_le : s'.dev.kernelEnd ≤ s'.dev.next
  next_le : s'.dev.next ≤ s'.dev.dram.base + s'.dev.dram.size

theorem Good.loadKernel (h : Good True (Disciplined (· = .staging)) s) (hstop : s.stopped = none)
    (hclean : s.sys.Clean) (hexec : s.sys.world.machine.executes = true)
    (hlen : image.length < 2 ^ 63) (hnext : s.sys.dev.next ≤ s.sys.dev.dram.base + s.sys.dev.dram.size)
    (hrun : loadKernel image s.sys = (.ok kernel, sys')) : ∃ elf, Loaded image s.sys sys' kernel elf := by
  have hlen' : image.length < 2 ^ 64 := hlen.trans (by decide)
  obtain ⟨elf, hparse⟩ : ∃ elf, Elf.parse image = .ok elf := by
    by_contra hnone
    have hrej : Rejected image s.sys.dev := fun elf helf => absurd ⟨elf, helf⟩ hnone
    exact (loadKernel_rejected hrej).of_ok rfl hrun
  obtain ⟨hformed, hkernel⟩ := (Elf.parse_eq_ok hlen').1 hparse
  have hsegs : Elf.loadable image = elf.segments := by rw [hkernel]
  have hentry : Elf.entryOf image = elf.entry := by rw [hkernel]
  have hvalid := hformed.valid
  have hdisjoint := hformed.disjoint
  rw [hsegs] at hvalid hdisjoint
  have hload : ∀ X acc fr, Stable (storing (ranges elf.segments) (imageData image elf.segments)) X →
      Idle fr → Distinct s.hosts → Triple (Rests True X acc fr s.unwaited s.hosts)
        (EtSoc.loadKernel image) (Ends (KernelLoaded True (storing (ranges elf.segments)
          (imageData image elf.segments)) image X acc fr s.unwaited s.hosts) fun _ _ => True) :=
    fun X acc fr hX hidle hdistinct => (loadKernel_rests hX hidle hdistinct (fun _ => trivial) hlen'
      fun a ⟨elf', helf', _, ha⟩ => by
        obtain rfl := Except.ok.inj (helf'.symm.trans hparse)
        exact ha.stores hdisjoint).conseq (fun _ h => h) (fun _ _ h => h) (fun _ _ _ => trivial)
          fun _ h => h
  have hstored := h.stored hstop hclean hexec (fun X acc fr hX hidle hdistinct _ =>
    (hload X acc fr hX hidle hdistinct).conseq (fun _ h => h)
      (fun _ _ ⟨elf', own, fr', helf', _, hown, _, _, hs⟩ => by
        obtain rfl := Except.ok.inj (helf'.symm.trans hparse)
        exact ⟨own, fr', hown.storesAll hdisjoint, hs⟩) (fun _ _ h => h) fun _ h => h) hrun
  obtain ⟨hdistinct, acc, fr, hidle, hs⟩ := h.resting hstop hclean
  have hs : Rests True (fun _ => True) acc fr s.unwaited s.hosts s.sys := hs.mono fun _ _ => trivial
  obtain ⟨elf', own, fr', helf', hcode, -, hreserves, -, hs'⟩ :=
    (hload _ acc fr (fun _ _ _ _ _ => trivial) hidle hdistinct).of_ok hs hrun
  obtain rfl := Except.ok.inj (helf'.symm.trans hparse)
  have hkernelEnd : sys'.dev.kernelEnd = fr'.kernelEnd := congrArg Frame.kernelEnd hs'.frame
  have hnext' : sys'.dev.next = max fr.next fr'.kernelEnd :=
    (congrArg Frame.next hs'.frame).trans hreserves.next
  have hdram : sys'.dev.dram = fr.dram := (congrArg Frame.dram hs'.frame).trans hreserves.dram
  rw [show s.sys.dev.next = fr.next from congrArg Frame.next hs.frame,
    show s.sys.dev.dram = fr.dram from congrArg Frame.dram hs.frame] at hnext
  refine ⟨elf', hparse, hstored.placed hvalid hdisjoint, hcode, ?_, ?_, ?_, ?_⟩
  · rw [hcode, ← hentry, ← hsegs]
    exact hformed.entry
  · rw [hkernelEnd]
    exact hreserves.covers
  · rw [hkernelEnd, hnext']
    exact Nat.le_max_right ..
  · rw [hnext', hdram]
    exact Nat.max_le.2 ⟨hnext, hreserves.within⟩

/-- From every state in which each outstanding tag was abandoned or has a handle, a load that
succeeds places the image; and from every state at all, a rejected one changes nothing. -/
theorem loads_exactly {setup : Setup} (calls : List Call) (hbears : setup.machine.bearsTag = true)
    (hexec : setup.machine.executes = true) (hstop : ((init setup).run calls).stopped = none)
    (image : List UInt8) (hlen : image.length < 2 ^ 63) :
    (((init setup).run calls).Covered → ∀ kernel sys',
      EtSoc.loadKernel image ((init setup).run calls).sys = (.ok kernel, sys') →
        ∃ elf, Loaded image ((init setup).run calls).sys sys' kernel elf) ∧
    (Rejected image ((init setup).run calls).sys.dev →
      (EtSoc.loadKernel image ((init setup).run calls).sys).1.isOk = false ∧
        (EtSoc.loadKernel image ((init setup).run calls).sys).2 = ((init setup).run calls).sys) := by
  refine ⟨fun hcovered kernel sys' hrun => ?_, fun hrej => ?_⟩
  · have hclean := (good_run hbears calls).clean_of_covered hstop hcovered
    refine (disciplined_run calls hbears hclean).loadKernel hstop hclean ?_ hlen ?_ hrun
    · rw [run_machine]
      exact hexec
    · obtain ⟨hdram, hnext⟩ := ((heapSteady_within setup.dram).steadfast.run (s := init setup)
        ⟨⟨rfl, Nat.le_add_right ..⟩, fun _ => rfl, by simp [init]⟩
        fun call _ => call.builds_any _).sys
      rw [hdram]
      exact hnext
  · have h := loadKernel_rejected hrej _ rfl
    generalize EtSoc.loadKernel image _ = r at h
    obtain ⟨outcome, sys'⟩ := r
    cases outcome with
    | ok kernel => exact h.elim
    | err e => exact ⟨rfl, h⟩
    | stop r => exact ⟨rfl, h⟩

/-- One segment at address 8 of 5 bytes, which are followed by 6 zeros in memory. -/
def tailed : List UInt8 :=
  [127, 69, 76, 70, 2, 1, 0, 0, 0, 0, 0, 0, 0, 0, 0, 0, 2, 0, 243, 0, 1, 0, 0, 0,
    8, 0, 0, 0, 0, 0, 0, 0, 64, 0, 0, 0, 0, 0, 0, 0, 0, 0, 0, 0, 0, 0, 0, 0,
    0, 0, 0, 0, 64, 0, 56, 0, 1, 0, 0, 0, 0, 0, 0, 0] ++
  [1, 0, 0, 0, 5, 0, 0, 0, 120, 0, 0, 0, 0, 0, 0, 0, 8, 0, 0, 0, 0, 0, 0, 0,
    0, 0, 0, 0, 0, 0, 0, 0, 5, 0, 0, 0, 0, 0, 0, 0, 11, 0, 0, 0, 0, 0, 0, 0,
    0, 16, 0, 0, 0, 0, 0, 0] ++ [1, 2, 3, 4, 5]

theorem parse_tailed : Elf.parse tailed = .ok ⟨8, [⟨120, 8, 5, 11⟩]⟩ := by decide +kernel

/-- The file bytes are loaded in two chunks, and so are the zeros after them. -/
def placing : Setup := narrow (granted 8 ++ [served 0 0 0, served 1 1 0, served 2 2 0] ++
  granted 5 ++ [served 3 3 0, served 4 4 0, served 5 5 0])

theorem loads_exactly_tailed :
    (∃ kernel sys', EtSoc.loadKernel tailed ((init placing).run [.setStagingCapacity 1]).sys =
      (.ok kernel, sys') ∧
      ∃ elf, Loaded tailed ((init placing).run [.setStagingCapacity 1]).sys sys' kernel elf) ∧
    (EtSoc.loadKernel tailed ((init placing).run [.setStagingCapacity 1, .alloc 12]).sys).1.isOk =
        false ∧
      (EtSoc.loadKernel tailed ((init placing).run [.setStagingCapacity 1, .alloc 12]).sys).2 =
        ((init placing).run [.setStagingCapacity 1, .alloc 12]).sys := by
  constructor
  · obtain ⟨kernel, sys', hrun⟩ : ∃ kernel sys', EtSoc.loadKernel tailed
      ((init placing).run [.setStagingCapacity 1]).sys = (.ok kernel, sys') :=
        Prog.eq_ok (by decide +kernel)
    exact ⟨kernel, sys', hrun, (loads_exactly [.setStagingCapacity 1] rfl rfl (by decide +kernel)
      tailed (by decide +kernel)).1 (by decide +kernel) kernel sys' hrun⟩
  · refine (loads_exactly [.setStagingCapacity 1, .alloc 12] rfl rfl (by decide +kernel) tailed
      (by decide +kernel)).2 fun elf helf => ?_
    obtain rfl := Except.ok.inj (helf.symm.trans parse_tailed)
    -- The segment overlaps the region that was allocated.
    exact ⟨_, List.mem_cons_self, fun h => h.apart (by decide +kernel)⟩

/-- One segment of 40 bytes at address 0, all of them 7. -/
def sevens : List UInt8 :=
  [127, 69, 76, 70, 2, 1, 0, 0, 0, 0, 0, 0, 0, 0, 0, 0, 2, 0, 243, 0, 1, 0, 0, 0,
    0, 0, 0, 0, 0, 0, 0, 0, 64, 0, 0, 0, 0, 0, 0, 0, 0, 0, 0, 0, 0, 0, 0, 0,
    0, 0, 0, 0, 64, 0, 56, 0, 1, 0, 0, 0, 0, 0, 0, 0] ++
  [1, 0, 0, 0, 5, 0, 0, 0, 120, 0, 0, 0, 0, 0, 0, 0, 0, 0, 0, 0, 0, 0, 0, 0,
    0, 0, 0, 0, 0, 0, 0, 0, 40, 0, 0, 0, 0, 0, 0, 0, 40, 0, 0, 0, 0, 0, 0, 0,
    0, 16, 0, 0, 0, 0, 0, 0] ++ List.replicate 40 7

theorem parse_sevens : Elf.parse sevens = .ok ⟨0, [⟨120, 0, 40, 40⟩]⟩ := by decide +kernel

/-- The load reports success, and has placed zeros that the late command fetched. -/
theorem not_loads_exactly_late : late.machine.bearsTag = true ∧ late.machine.executes = true ∧
    ((init late).run [.memcpyD2h 0 40 .default]).stopped = none ∧ sevens.length < 2 ^ 63 ∧
    ∃ kernel sys', EtSoc.loadKernel sevens ((init late).run [.memcpyD2h 0 40 .default]).sys =
        (.ok kernel, sys') ∧
      ¬∃ elf, Loaded sevens ((init late).run [.memcpyD2h 0 40 .default]).sys sys' kernel elf := by
  obtain ⟨kernel, sys', hrun⟩ : ∃ kernel sys', EtSoc.loadKernel sevens
    ((init late).run [.memcpyD2h 0 40 .default]).sys = (.ok kernel, sys') :=
      Prog.eq_ok (by decide +kernel)
  have hmem : (EtSoc.loadKernel sevens
      ((init late).run [.memcpyD2h 0 40 .default]).sys).2.world.mem 32 = 0 := by decide +kernel
  rw [hrun] at hmem
  refine ⟨rfl, rfl, by decide +kernel, by decide +kernel, kernel, sys', hrun, fun ⟨elf, h⟩ => ?_⟩
  obtain rfl := Except.ok.inj (h.parsed.symm.trans parse_sevens)
  have hbyte := h.placed.file ⟨120, 0, 40, 40⟩ List.mem_cons_self 32 (by decide) (settled_late _)
  rw [show (0 : ℕ) + 32 = 32 from rfl, hmem] at hbyte
  exact absurd hbyte (by decide)

end Session

end EtSoc

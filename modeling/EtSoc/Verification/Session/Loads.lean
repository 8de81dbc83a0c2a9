import EtSoc.Model.Load
import EtSoc.Verification.Elf.Parse
import EtSoc.Verification.Session.Heap
import EtSoc.Verification.Session.Transfers

/-! # Loading kernels -/

namespace EtSoc

open Function Program

variable {E : Env} {clean : Prop} {X : World → Prop} {acc own own' : List Accepted} {fr fr' : Frame}
  {handles : List Handle} {pinned : List DmaHostBuffer} {carries : Accepted → Prop}
  {image : List UInt8} {seg : Elf.LoadSegment} {segs : List Elf.LoadSegment}

/-! ## Deliveries -/

theorem Delivers.append {strict : Purpose → Prop} {purpose : Purpose} {sq : UInt16}
    {dst total more : ℕ} {data : Memory} (h : Delivers strict purpose sq dst total data own)
    (h' : Delivers strict purpose sq (dst + total) more data own') :
    Delivers strict purpose sq dst (total + more) data (own ++ own') := by
  refine ⟨h.transfers.append h'.transfers, fun hst a ha => ?_⟩
  rcases List.mem_append.1 ha with ha | ha
  · exact h.payload hst a ha
  · exact h'.payload hst a ha

theorem Sends.mono {purpose : Purpose} {sq : UInt16} {dst total dst' total' : ℕ} {data data' : Memory}
    {a : Accepted} (h : Sends E purpose sq dst total data a) (hlo : dst' ≤ dst)
    (hhi : dst + total ≤ dst' + total')
    (hdata : ∀ x, dst ≤ x → x < dst + total → data x = data' x) :
    Sends E purpose sq dst' total' data' a := by
  refine ⟨h.1.mono (fun _ hb => hb) hlo hhi, fun hst n hn k hk => ?_⟩
  obtain ⟨-, hle, hlt⟩ := h.1.within n hn
  rw [h.2 hst n hn k hk]
  exact hdata _ (by omega) (by omega)

theorem Delivers.congr {purpose : Purpose} {sq : UInt16} {dst total : ℕ} {data data' : Memory}
    (h : Delivers E.strict purpose sq dst total data own)
    (hdata : ∀ x, dst ≤ x → x < dst + total → data x = data' x) :
    Delivers E.strict purpose sq dst total data' own :=
  ⟨h.transfers, fun hst a ha =>
    ((h.sends a ha).mono (Nat.le_refl _) (Nat.le_refl _) hdata).2 hst⟩

/-! ## Segments -/

/-- What a segment puts at a device address: bytes of the image, then zeros. -/
def segmentData (image : List UInt8) (seg : Elf.LoadSegment) : Memory := fun x =>
  if x < seg.vaddr + seg.fileSize then image.getD (seg.fileOffset + (x - seg.vaddr)) 0 else 0

/-- What the command of a load is. -/
def Loads (E : Env) (image : List UInt8) (segs : List Elf.LoadSegment) (a : Accepted) : Prop :=
  ∃ seg ∈ segs, Sends E .staging 0 seg.vaddr seg.memSize (segmentData image seg) a

/-- The commands `own` put the segments into device memory, one after the other. -/
inductive DeliversAll (E : Env) (image : List UInt8) :
    List Elf.LoadSegment → List Accepted → Prop where
  | nil : DeliversAll E image [] []
  | cons {seg : Elf.LoadSegment} {segs : List Elf.LoadSegment} {own own' : List Accepted}
      (h : Delivers E.strict .staging 0 seg.vaddr seg.memSize (segmentData image seg) own)
      (hs : DeliversAll E image segs own') : DeliversAll E image (seg :: segs) (own ++ own')

theorem DeliversAll.loads (h : DeliversAll E image segs own) : ∀ a ∈ own, Loads E image segs a := by
  induction h with
  | nil => simp
  | cons h _ ih =>
    intro a ha
    rcases List.mem_append.1 ha with ha | ha
    · exact ⟨_, List.mem_cons_self, h.sends a ha⟩
    · obtain ⟨seg, hseg, hsends⟩ := ih a ha
      exact ⟨seg, List.mem_cons_of_mem _ hseg, hsends⟩

theorem GaveUp.mono {carries' : Accepted → Prop} {s : Sys}
    (h : GaveUp clean carries X acc fr handles pinned s) (hc : ∀ a, carries a → carries' a) :
    GaveUp clean carries' X acc fr handles pinned s := by
  obtain ⟨own, fr', hown, hrest⟩ := h
  exact ⟨own, fr', fun a ha => hc a (hown a ha), hrest⟩

theorem Finished.mono {R R' : List Accepted → Prop} {s : Sys}
    (h : Finished clean R X acc fr handles pinned s) (hR : ∀ own, R own → R' own) :
    Finished clean R' X acc fr handles pinned s := by
  obtain ⟨own, fr', hown, hrest⟩ := h
  exact ⟨own, fr', hR own hown, hrest⟩

section
variable {addr tail : ℕ}

/-- The tail from byte `done` on is cleared. -/
theorem clearTail_rests (hdistinct : Distinct pinned) (n : ℕ) :
    ∀ {X : World → Prop} {acc : List Accepted} {fr : Frame} (done : ℕ), Stable E X → Idle fr →
      (E.strict .staging → clean) → done ≤ tail → tail ≤ done + n →
      (∀ a, Sends E .staging 0 addr tail (fun _ => 0) a → E.accepts a) →
      Triple (Rests clean X acc fr handles pinned) (clearTail addr tail n done)
        (Ends (fun _ => Finished clean (Delivers E.strict .staging 0 (addr + done) (tail - done)
            fun _ => 0) X acc fr handles pinned)
          fun _ => GaveUp clean (Sends E .staging 0 addr tail fun _ => 0) X acc fr handles pinned) := by
  induction n with
  | zero =>
    intro X acc fr done hX hidle _ hle hn _
    obtain rfl : done = tail := by omega
    refine .pure fun s hs => .none hidle ?_ hs
    rw [Nat.sub_self]
    exact ⟨.nil, by simp⟩
  | succ n ih =>
    intro X acc fr done hX hidle hstrict hle hn hE
    refine .ite (fun hlt => ?_) fun hge => .pure fun s hs => .none hidle ?_ hs
    · let len := min (tail - done) (min tail zeroChunk)
      have hpos : 1 ≤ len := by simp only [len, zeroChunk]; omega
      refine .bind u64Add_spec fun dst => .intro (fun _ h => h.2) fun hdst => .pre ?_ fun _ h => h.1
      subst hdst
      have hzero : ∀ x, addr + done ≤ x → x < addr + done + (List.replicate len (0 : UInt8)).length →
          (List.replicate len (0 : UInt8)).getD (x - (addr + done)) 0 = 0 := fun x _ _ => by
        simp [List.getD_eq_getElem?_getD, List.getElem?_replicate]
        split <;> rfl
      have hwithin : ∀ a, Sends E .staging 0 (addr + done) (List.replicate len (0 : UInt8)).length
          (fun x => (List.replicate len (0 : UInt8)).getD (x - (addr + done)) 0) a →
          Sends E .staging 0 addr tail (fun _ => 0) a := fun a ha =>
        ha.mono (by omega) (by rw [List.length_replicate]; omega) hzero
      have hfirst := memcpyH2d_rests acc handles .default hX hidle hdistinct hstrict
        fun a ha => hE a (hwithin a ha)
      refine (Finished.bind _ (R := Delivers E.strict .staging 0 (addr + done) len fun _ => 0)
        (Q := fun _ => Delivers E.strict .staging 0 (addr + (done + len)) (tail - (done + len))
          fun _ => 0)
        (hfirst.conseq (fun _ h => h) (fun _ _ h => h.mono fun own hown => ?_)
          (fun _ _ h => h.mono hwithin) fun _ h => h)
        (fun own hown a ha => (hown.sends a ha).mono (by omega) (by omega) fun _ _ _ => rfl)
        fun _ own fr' hown hrestocks hidle' => ?_).conseq (fun _ h => h)
        (fun _ _ h => h.mono ?_) (fun _ _ h => h) fun _ h => h
      · have := hown.congr hzero
        rwa [List.length_replicate] at this
      · exact ih (done + len) (hX.and stable_completedFrom) hidle' hstrict (by omega) (by omega) hE
      · rintro own ⟨own₁, own₂, rfl, h₁, h₂⟩
        rw [show tail - done = len + (tail - (done + len)) by omega]
        exact h₁.append (by rwa [Nat.add_assoc])
    · rw [show tail - done = 0 by omega]
      exact ⟨.nil, by simp⟩

end

/-- One segment is loaded. -/
theorem loadSegment_rests (acc : List Accepted) (handles : List Handle) (hX : Stable E X)
    (hidle : Idle fr) (hdistinct : Distinct pinned)
    (hstrict : E.strict .staging → clean) (hseg : Elf.Valid image seg)
    (hE : ∀ a, Sends E .staging 0 seg.vaddr seg.memSize (segmentData image seg) a → E.accepts a) :
    Triple (Rests clean X acc fr handles pinned) (do loadFile image seg; loadTail seg)
      (Ends (fun _ => Finished clean (Delivers E.strict .staging 0 seg.vaddr seg.memSize
          (segmentData image seg)) X acc fr handles pinned)
        fun _ => GaveUp clean (Sends E .staging 0 seg.vaddr seg.memSize (segmentData image seg)) X acc fr
          handles pinned) := by
  have hsize := hseg.size
  let bytes := (image.drop seg.fileOffset).take seg.fileSize
  have hlen : bytes.length = seg.fileSize := by
    have := hseg.inFile
    simp only [bytes, List.length_take, List.length_drop]
    omega
  have hfile : ∀ x, seg.vaddr ≤ x → x < seg.vaddr + seg.fileSize →
      bytes.getD (x - seg.vaddr) 0 = segmentData image seg x := fun x hlo hhi => by
    rw [segmentData, if_pos hhi]
    simp only [bytes, List.getD_eq_getElem?_getD]
    rw [List.getElem?_take, if_pos (by omega), List.getElem?_drop]
  have htail : ∀ x, seg.vaddr + seg.fileSize ≤ x →
      x < seg.vaddr + seg.fileSize + (seg.memSize - seg.fileSize) →
      (0 : UInt8) = segmentData image seg x := fun x hlo _ => by
    rw [segmentData, if_neg (by omega)]
  have hsends : ∀ a, Sends E .staging 0 seg.vaddr bytes.length (fun x => bytes.getD (x - seg.vaddr) 0)
      a → Sends E .staging 0 seg.vaddr seg.memSize (segmentData image seg) a := fun a ha =>
    ha.mono (Nat.le_refl _) (by omega) (by rwa [hlen])
  have hsends' : ∀ a, Sends E .staging 0 (seg.vaddr + seg.fileSize) (seg.memSize - seg.fileSize)
      (fun _ => 0) a → Sends E .staging 0 seg.vaddr seg.memSize (segmentData image seg) a :=
    fun a ha => ha.mono (by omega) (by omega) htail
  have hfirst : Triple (Rests clean X acc fr handles pinned) (loadFile image seg)
      (Ends (fun _ => Finished clean (Delivers E.strict .staging 0 seg.vaddr seg.fileSize
          (segmentData image seg)) X acc fr handles pinned)
        fun _ => GaveUp clean (Sends E .staging 0 seg.vaddr seg.memSize (segmentData image seg)) X acc fr
          handles pinned) := by
    refine .ite (fun _ => ?_) fun hzero => .pure fun s hs => .none hidle ?_ hs
    · refine (memcpyH2d_rests _ _ _ hX hidle hdistinct hstrict fun a ha =>
        hE a (hsends a ha)).conseq (fun _ h => h) (fun _ _ h => h.mono fun own hown => ?_)
        (fun _ _ h => h.mono hsends) fun _ h => h
      have hdelivers : Delivers E.strict .staging 0 seg.vaddr bytes.length (segmentData image seg) own :=
        hown.congr (by rwa [hlen])
      rwa [hlen] at hdelivers
    · rw [show seg.fileSize = 0 by omega]
      exact ⟨.nil, by simp⟩
  refine (Finished.bind _ (Q := fun _ => Delivers E.strict .staging 0 (seg.vaddr + seg.fileSize)
    (seg.memSize - seg.fileSize) (segmentData image seg)) hfirst
    (fun own hown a ha => (hown.sends a ha).mono (Nat.le_refl _) (by omega) fun _ _ _ => rfl)
    fun _ own fr' hown hrestocks hidle' => ?_).conseq (fun _ h => h)
    (fun _ _ h => h.mono ?_) (fun _ _ h => h) fun _ h => h
  · refine .ite (fun hmore => ?_) fun hfull => .pure fun s hs => .none hidle' ?_ hs
    · refine .bind u64Add_spec fun addr => .intro (fun _ h => h.2) fun haddr => .pre ?_ fun _ h => h.1
      subst haddr
      refine (clearTail_rests hdistinct (seg.memSize - seg.fileSize) 0
        (hX.and stable_completedFrom) hidle'
        hstrict (Nat.zero_le _) (by omega) fun a ha =>
          hE a (hsends' a ha)).conseq (fun _ h => h) (fun _ _ h => h.mono fun own hown => ?_)
        (fun _ _ h => h.mono hsends') fun _ h => h
      exact hown.congr htail
    · rw [show seg.memSize - seg.fileSize = 0 by omega]
      exact ⟨.nil, by simp⟩
  · rintro own ⟨own₁, own₂, rfl, h₁, h₂⟩
    have := h₁.append h₂
    rwa [show seg.fileSize + (seg.memSize - seg.fileSize) = seg.memSize by omega] at this

theorem loadSegments_rests (hdistinct : Distinct pinned) (segs : List Elf.LoadSegment) :
    ∀ {X : World → Prop} {acc : List Accepted} {fr : Frame}, Stable E X → Idle fr →
      (E.strict .staging → clean) → (∀ seg ∈ segs, Elf.Valid image seg) →
      (∀ a, Loads E image segs a → E.accepts a) →
      Triple (Rests clean X acc fr handles pinned) (loadSegments image segs)
        (Ends (fun _ => Finished clean (DeliversAll E image segs) X acc fr handles pinned)
          fun _ => GaveUp clean (Loads E image segs) X acc fr handles pinned) := by
  induction segs with
  | nil => exact fun _ hidle _ _ _ => .pure fun s hs => .none hidle .nil hs
  | cons seg segs ih =>
    intro X acc fr hX hidle hstrict hvalid hE
    have hhead : ∀ a, Sends E .staging 0 seg.vaddr seg.memSize (segmentData image seg) a →
        Loads E image (seg :: segs) a := fun a ha => ⟨seg, List.mem_cons_self, ha⟩
    have hrest : ∀ a, Loads E image segs a → Loads E image (seg :: segs) a :=
      fun a ⟨t, ht, ha⟩ => ⟨t, List.mem_cons_of_mem _ ht, ha⟩
    have hfirst := loadSegment_rests acc handles hX hidle hdistinct hstrict
      (hvalid seg List.mem_cons_self) fun a ha => hE a (hhead a ha)
    rw [show loadSegments image (seg :: segs) = (do loadFile image seg; loadTail seg) >>= fun _ =>
      loadSegments image segs from (Prog.bind_assoc ..).symm]
    refine (Finished.bind (Loads E image (seg :: segs))
      (Q := fun _ => DeliversAll E image segs) (hfirst.conseq (fun _ h => h) (fun _ _ h => h)
        (fun _ _ h => h.mono hhead) fun _ h => h)
      (fun own hown a ha => hhead a (hown.sends a ha))
      fun _ own fr' hown hrestocks hidle' => ?_).conseq (fun _ h => h)
      (fun _ _ h => h.mono ?_) (fun _ _ h => h) fun _ h => h
    · exact (ih (hX.and stable_completedFrom) hidle'
        hstrict (fun t ht => hvalid t (List.mem_cons_of_mem _ ht))
        fun a ha => hE a (hrest a ha)).conseq (fun _ h => h) (fun _ _ h => h)
        (fun _ _ h => h.mono hrest) fun _ h => h
    · rintro own ⟨own₁, own₂, rfl, h₁, h₂⟩
      exact .cons h₁ h₂

/-! ## The driver method -/

theorem checkSegments_spec {held fresh : List Tag} {P : World → Prop} {dram : DramInfo}
    {liveStart liveEnd : ℕ} (segs : List Elf.LoadSegment) (occupied : ℕ) :
    Triple (Ready P fr held fresh)
      (checkSegments dram (dram.base + dram.size) liveStart liveEnd segs occupied)
      (Ends (fun stop s => ((∀ seg ∈ segs, Admitted dram liveStart liveEnd seg) ∧ occupied ≤ stop ∧
          (∀ seg ∈ segs, seg.vaddr + seg.memSize ≤ stop)) ∧ Ready P fr held fresh s)
        fun _ => Ready P fr held fresh) :=
  checkSegments_triple segs (fun _ _ _ _ h => h.inOrder) (fun _ _ h => h) occupied

theorem alignUpChecked_spec {held fresh : List Tag} {P : World → Prop} {value align : ℕ}
    {F : Error → Sys → Prop} :
    Triple (Ready P fr held fresh) (alignUpChecked value align)
      (Ends (fun start s => Ready P fr held fresh s ∧ start = PowersOfTwo.alignUp value align ∧
        value + align < 2 ^ 64) F) := by
  refine .bind (R := fun _ s => Ready P fr held fresh s ∧ value + align < 2 ^ 64)
    (.ite (fun hlt => .pure fun s hs => ⟨hs, hlt⟩) fun _ => .panic fun s hs => hs.inOrder)
    fun _ => .pure fun s hs => ⟨hs.1, rfl, hs.2⟩

/-- The frame after a load. -/
structure Reserves (fr : Frame) (segs : List Elf.LoadSegment) (fr' : Frame) : Prop where
  admitted : ∀ seg ∈ segs, Admitted fr.dram fr.kernelEnd fr.next seg
  covers : ∀ seg ∈ segs, seg.vaddr + seg.memSize ≤ fr'.kernelEnd
  within : fr'.kernelEnd ≤ fr.dram.base + fr.dram.size
  le : fr.kernelEnd ≤ fr.dram.base + fr.dram.size → fr.kernelEnd ≤ fr'.kernelEnd
  next : fr'.next = max fr.next fr'.kernelEnd
  argsSlots : fr'.argsSlots = fr.argsSlots
  dram : fr'.dram = fr.dram

/-- A kernel was loaded. -/
def KernelLoaded (clean : Prop) (E : Env) (image : List UInt8) (X : World → Prop)
    (acc : List Accepted) (fr : Frame) (handles : List Handle) (pinned : List DmaHostBuffer)
    (kernel : LoadedKernel) (s : Sys) : Prop :=
  ∃ elf own fr', Elf.parse image = .ok elf ∧ kernel.codeStartAddress = elf.entry ∧
    DeliversAll E image elf.segments own ∧ Reserves fr elf.segments fr' ∧ Idle fr' ∧
    Rests clean (fun w => X w ∧ w.CompletedFrom acc.length (acc ++ own).length) (acc ++ own) fr' handles
      pinned s

/-- What the commands of a load are, if its image is accepted. -/
def LoadsImage (E : Env) (image : List UInt8) (fr : Frame) (a : Accepted) : Prop :=
  ∃ elf, Elf.parse image = .ok elf ∧
    (∀ seg ∈ elf.segments, Admitted fr.dram fr.kernelEnd fr.next seg) ∧ Loads E image elf.segments a

theorem loadKernel_rests (hX : Stable E X) (hidle : Idle fr) (hdistinct : Distinct pinned)
    (hstrict : E.strict .staging → clean) (hlen : image.length < 2 ^ 64)
    (hE : ∀ a, LoadsImage E image fr a → E.accepts a) :
    Triple (Rests clean X acc fr handles pinned) (loadKernel image)
      (Ends (KernelLoaded clean E image X acc fr handles pinned)
        fun _ => GaveUp clean (LoadsImage E image fr) X acc fr handles pinned) := by
  refine .bind (R := fun elf s => Elf.parse image = .ok elf ∧ Rests clean X acc fr handles pinned s)
    (.ofExcept (fun elf h s hs => ⟨h, hs⟩) fun e _ s hs => .none hidle hs) fun elf =>
      .and_pre fun hparse => .read_bind fun dev => .intro (p := dev.dram = fr.dram ∧
        dev.kernelEnd = fr.kernelEnd ∧ dev.next = fr.next) (fun s hs => ?_) fun hdev => ?_
  · obtain ⟨hs, rfl⟩ := hs
    exact ⟨congrArg Frame.dram hs.frame, congrArg Frame.kernelEnd hs.frame,
      congrArg Frame.next hs.frame⟩
  rw [hdev.1, hdev.2.1, hdev.2.2]
  refine .bind (u64Add_spec.pre fun _ h => h.1) fun regionEnd => .intro (fun _ h => h.2)
    fun hregion => .pre ?_ fun _ h => h.1
  subst hregion
  refine .bind ((checkSegments_spec elf.segments fr.kernelEnd).conseq (fun _ h => h)
    (fun _ _ h => h) (fun _ _ h => .none hidle h) fun _ h => h) fun occupied =>
      .and_pre fun ⟨hadmitted, hle, hends⟩ => ?_
  have hvalid := ((Elf.parse_eq_ok hlen).1 hparse).1.valid
  rw [show Elf.loadable image = elf.segments by rw [((Elf.parse_eq_ok hlen).1 hparse).2]] at hvalid
  refine .bind ((loadSegments_rests hdistinct elf.segments hX hidle hstrict hvalid fun a ha =>
    hE a ⟨elf, hparse, hadmitted, ha⟩).conseq (fun _ h => h) (fun _ _ h => h)
    (fun _ _ h => h.mono fun a ha => ⟨elf, hparse, hadmitted, ha⟩) fun _ h => h) fun _ =>
      .exists_pre fun own => .exists_pre fun fr' => .and_pre fun hown => .and_pre fun hrestocks =>
        .and_pre fun hidle' => ?_
  refine .bind alignUpChecked_spec fun aligned => .intro (fun _ h => h.2) fun haligned s hs => ?_
  obtain ⟨staging, unmapped, forgotten, rfl⟩ := hrestocks
  have hs := hs.1
  let kernelEnd := min aligned (fr.dram.base + fr.dram.size)
  let fr₁ : Frame := { { fr.restock staging unmapped with cut := forgotten ++ fr.cut } with
    kernelEnd := kernelEnd
    next := max fr.next kernelEnd
    heap := .loaded (elf.segments.map fun s => (s.vaddr, s.memSize)) kernelEnd :: fr.heap }
  have hup : occupied ≤ aligned := haligned.1 ▸ occupied_le_alignUp haligned.2
  have halike : ({ fr.restock staging unmapped with cut := forgotten ++ fr.cut } : Frame).Alike
      fr₁ [] := ⟨rfl, rfl, rfl, rfl, fun _ h => h, rfl, by simp⟩
  refine ⟨elf, own, fr₁, hparse, rfl, hown, ⟨hadmitted, fun seg hseg => ?_, Nat.min_le_right ..,
    fun h => Nat.le_min.2 ⟨hle.trans hup, h⟩, rfl, rfl, rfl⟩, hidle'.alike halike,
    Rests.alike halike (by simp) ⟨hs.tags, hs.world, ?_⟩⟩
  · exact Nat.le_min.2 ⟨(hends seg hseg).trans hup, (hadmitted seg hseg).below⟩
  · have hframe : { s.frame with
        kernelEnd := kernelEnd
        next := max s.dev.next kernelEnd
        heap := .loaded (elf.segments.map fun s => (s.vaddr, s.memSize)) kernelEnd :: s.heap } =
        fr₁ := by
      rw [hs.frame, show s.dev.next = fr.next from congrArg Frame.next hs.frame,
        show s.heap = fr.heap from congrArg Frame.heap hs.frame]
    exact hframe

end EtSoc

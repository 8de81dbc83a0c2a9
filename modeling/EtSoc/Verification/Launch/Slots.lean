import EtSoc.Model.Launch
import EtSoc.Verification.Dma.Staging

/-! # Argument slots -/

namespace EtSoc

open Function Program

variable {P : World → Prop} {fr : Frame} {held fresh rest : List Tag} {F : Error → Sys → Prop}

/-! ## Allocation -/

/-- What `alloc` returns. -/
structure Allocates (fr : Frame) (size : ℕ) (region : DeviceRegion) : Prop where
  addr : region.addr = PowersOfTwo.alignUp fr.next (allocAlignment fr.dram)
  len : region.size = size
  align : fr.next + allocAlignment fr.dram < 2 ^ 64
  within : region.addr + size ≤ fr.dram.base + fr.dram.size

/-- The allocator once it has handed out `region`. -/
def Frame.allocated (fr : Frame) (region : DeviceRegion) : Frame :=
  { fr with next := region.addr + region.size, heap := .allocated region :: fr.heap }

theorem alloc_spec {size : ℕ} :
    Triple (Ready P fr held fresh) (alloc size)
      (Ends (fun region s => Allocates fr size region ∧ Ready P (fr.allocated region) held fresh s)
        fun _ => Ready P fr held fresh) := by
  refine .read_bind fun dev => .intro (p := dev.next = fr.next ∧ dev.dram = fr.dram)
    (fun s hs => ?_) fun hdev => ?_
  · obtain ⟨hs, rfl⟩ := hs
    exact ⟨congrArg Frame.next hs.frame, congrArg Frame.dram hs.frame⟩
  rw [hdev.1, hdev.2]
  refine .bind (R := fun start s => Ready P fr held fresh s ∧
      start = PowersOfTwo.alignUp fr.next (allocAlignment fr.dram) ∧
      fr.next + allocAlignment fr.dram < 2 ^ 64) ?_ fun start => ?_
  · refine .bind (R := fun _ s => Ready P fr held fresh s ∧
      fr.next + allocAlignment fr.dram < 2 ^ 64) (.ite (fun hlt => .pure fun s hs => ⟨hs.1, hlt⟩)
        fun _ => .panic fun s hs => hs.1.inOrder) fun _ => .pure fun s hs => ⟨hs.1, rfl, hs.2⟩
  refine .intro (fun _ h => h.2) fun hstart => ?_
  refine .bind (u64Add_spec.pre fun _ h => h.1) fun stop => .intro (fun _ h => h.2) fun hstop => ?_
  refine .ite (fun _ => .throw fun s hs => hs.1) fun hfits s hs => ?_
  have hframe : { s.frame with next := start + size, heap := .allocated ⟨start, size⟩ :: s.heap } =
      fr.allocated ⟨start, size⟩ := by
    rw [hs.1.frame, show s.heap = fr.heap from congrArg Frame.heap hs.1.frame]
    rfl
  refine ⟨⟨hstart.1, rfl, hstart.2, ?_⟩, hs.1.tags, hs.1.world, hframe⟩
  simp only
  omega

/-! ## Choosing a slot -/

theorem mem_of_foldl_best {slots : List (ArgsSlot × ℕ)} {init : Option (ArgsSlot × ℕ)}
    {p : ArgsSlot × ℕ}
    (h : slots.foldl (fun best p =>
      match best with
      | some q => if p.1.region.size < q.1.region.size then some p else some q
      | none => some p) init = some p) : p ∈ slots ∨ init = some p := by
  induction slots generalizing init with
  | nil => exact .inr h
  | cons q slots ih =>
    obtain hmem | hinit := ih h
    · exact .inl (List.mem_cons_of_mem _ hmem)
    · cases init with
      | none => exact .inl (by simp_all)
      | some r =>
        simp only at hinit
        split at hinit
        · exact .inl (by simp_all)
        · exact .inr hinit

/-- A reused slot is large enough, and the command that last used it was collected. -/
theorem reusableSlot_eq_some {slots : List ArgsSlot} {outstanding : Finset Tag} {len i : ℕ}
    (h : reusableSlot slots outstanding len = some i) :
    ∃ slot, slots[i]? = some slot ∧ len ≤ slot.region.size ∧ slot.busy outstanding = false := by
  obtain ⟨p, hp, rfl⟩ := Option.map_eq_some_iff.1 h
  obtain hmem | hinit := mem_of_foldl_best hp
  · obtain ⟨hmem, hfits⟩ := List.mem_filter.1 hmem
    obtain ⟨slot, i⟩ := p
    refine ⟨slot, List.mem_zipIdx_iff_getElem?.1 hmem, ?_, ?_⟩ <;> simp_all
  · simp at hinit

/-- The slot chosen for arguments of `len` bytes, with the frame and its index. -/
inductive Chosen (fr : Frame) (len : ℕ) : Frame → ℕ → ArgsSlot → Prop where
  | reused {i slot} (h : fr.argsSlots[i]? = some slot) (hlen : len ≤ slot.region.size) :
      Chosen fr len fr i slot
  | fresh {region} (h : Allocates fr len region) :
      Chosen fr len
        { fr.allocated region with argsSlots := fr.argsSlots ++ [⟨region, none, none⟩] }
        fr.argsSlots.length ⟨region, none, none⟩

/-- The responses to all commands under the owner of a slot were popped. -/
def World.Free (w : World) (slot : ArgsSlot) : Prop :=
  ∀ t c a, slot.owner = some t → w.accepted[c]? = some a → a.cmd.tagId = t → w.popped c = true

theorem argsSlot_spec {len : ℕ} :
    Triple (Ready P fr held fresh) (argsSlot len)
      (Ends (fun i s => ∃ fr' slot, Chosen fr len fr' i slot ∧ s.world.Free slot ∧
          Ready P fr' held fresh s)
        fun _ => Ready P fr held fresh) := by
  refine .read_bind fun dev => ?_
  split
  · rename_i i hreuse
    refine .pure fun s hs => ?_
    obtain ⟨hs, rfl⟩ := hs
    obtain ⟨slot, hslot, hlen, hfree⟩ := reusableSlot_eq_some hreuse
    have hslots : s.dev.argsSlots = fr.argsSlots := congrArg Frame.argsSlots hs.frame
    refine ⟨fr, slot, .reused (hslots ▸ hslot) hlen, fun t c a ht ha hat => ?_, hs⟩
    have hout : t ∉ s.dev.outstanding := by simpa [ArgsSlot.busy, ht] using hfree
    exact hs.tags.popped_of_released hout ha hat
  · refine .bind (alloc_spec.pre fun _ h => h.1) fun region => .intro (fun _ h => h.1)
      fun hregion => ?_
    refine .read_bind fun dev => fun s hs => ?_
    obtain ⟨⟨-, hs⟩, rfl⟩ := hs
    have hslots : s.dev.argsSlots = fr.argsSlots := congrArg Frame.argsSlots hs.frame
    have hframe : ({ s.frame with argsSlots := s.dev.argsSlots ++ [⟨region, none, none⟩] } : Frame) =
        { fr.allocated region with argsSlots := fr.argsSlots ++ [⟨region, none, none⟩] } := by
      rw [hs.frame, hslots]
    change ∃ fr' slot, Chosen fr len fr' s.dev.argsSlots.length slot ∧ _
    rw [hslots]
    exact ⟨_, _, .fresh hregion, fun t c a ht => by simp at ht, hs.tags, hs.world, hframe⟩

/-! ## Pushing the arguments -/

/-- The slots with the `i`th one changed. -/
def Frame.setSlot (fr : Frame) (i : ℕ) (f : ArgsSlot → ArgsSlot) : Frame :=
  { fr with argsSlots := fr.argsSlots.modify i f }

theorem setSlot_spec {i : ℕ} {f : ArgsSlot → ArgsSlot} :
    Triple (Ready P fr held fresh) (setSlot i f)
      (Ends (fun _ => Ready P (fr.setSlot i f) held fresh) F) := by
  refine .modify fun s hs => ⟨hs.tags, hs.world, ?_⟩
  have hframe : { s.frame with argsSlots := s.dev.argsSlots.modify i f } = fr.setSlot i f := by
    rw [hs.frame, show s.dev.argsSlots = fr.argsSlots from congrArg Frame.argsSlots hs.frame]
    rfl
  exact hframe

theorem assignOwner_spec {i : ℕ} {tag : Option Tag} :
    Triple (Ready P fr held fresh) (assignOwner i tag)
      (Ends (fun _ => Ready P (fr.setSlot i fun s => { s with owner := tag.or s.owner }) held fresh)
        F) := by
  cases tag with
  | some tag => exact setSlot_spec
  | none =>
    refine .pure fun s hs => ?_
    have hframe : (fr.setSlot i fun s => { s with owner := (none : Option Tag).or s.owner }) = fr := by
      simp only [Frame.setSlot, Option.none_or]
      rw [show (fun s : ArgsSlot => { s with owner := s.owner }) = id from rfl, List.modify_id]
    rwa [hframe]

/-- The buffers that may hold the arguments of a slot: its own, or one mapped for it, as
the `N`th or later. -/
def HostOf (N : ℕ) (slot : ArgsSlot) (b : BufId) : Prop :=
  (∃ host, slot.host = some host ∧ host.id = b) ∨
    (slot.host = none ∧ b.purpose = .arguments ∧ N ≤ b.serial)

/-- A mapped buffer that no unanswered command uses, if it is under discipline. -/
structure Usable (E : Env) (B : World → Prop) (b : BufId) (w : World) : Prop where
  base : B w
  mapped : b.serial < w.nextBuf
  quiescent : E.strict b.purpose → w.Quiescent b

variable {E : Env} {B : World → Prop} {acc : List Accepted} {slot : ArgsSlot} {N : ℕ}

theorem patient_usable {b : BufId} (hB : Stable E B) : Patient (Usable E B b) :=
  ⟨fun w d hs h => ⟨hB.patient.step w d hs h.base, by simpa using h.mapped,
      fun hst => (World.patient_quiescent b).step w d hs (h.quiescent hst)⟩,
    fun w c rsp hs hr h => ⟨hB.patient.pop w c rsp hs hr h.base, h.mapped, h.quiescent⟩⟩

/-- What is needed of the world to fill in the arguments of a slot. -/
structure SlotReady (E : Env) (B : World → Prop) (slot : ArgsSlot) (w : World) : Prop where
  base : B w
  known : w.Mapped
  host : ∀ host, slot.host = some host → Usable E B host.id w

theorem patient_slotReady (hB : Stable E B) : Patient (SlotReady E B slot) :=
  ⟨fun w d hs h => ⟨hB.patient.step w d hs h.base, (stable_mapped E).patient.step w d hs h.known,
      fun host hh => (patient_usable hB).step w d hs (h.host host hh)⟩,
    fun w c rsp hs hr h => ⟨hB.patient.pop w c rsp hs hr h.base, h.known,
      fun host hh => (patient_usable hB).pop w c rsp hs hr (h.host host hh)⟩⟩

theorem slotHost_spec (hB : Stable E B) (hN : ∀ w, B w → N ≤ w.nextBuf) :
    Triple (Ready (fun w => SlotReady E B slot w ∧ w.accepted = acc) fr held []) (slotHost slot)
      (Ends (fun host s => HostOf N slot host.id ∧
          Ready (fun w => Usable E B host.id w ∧ w.accepted = acc) fr held [] s)
        fun _ s => slot.host = none ∧
          Ready (fun w => SlotReady E B slot w ∧ w.accepted = acc) fr held [] s) := by
  unfold slotHost
  split
  · rename_i host hhost
    exact .pure fun s hs => ⟨.inl ⟨host, hhost, rfl⟩, hs.mono fun w hw => ⟨hw.1.host host hhost, hw.2⟩⟩
  · rename_i hnone
    refine (dmaHostBuffer_spec (Q := fun serial w => (N ≤ serial ∧
      Usable E B ⟨.arguments, serial⟩ w) ∧ w.accepted = acc)
      ((patient_slotReady hB).and (.accepted acc)) fun w contents hs hw => ?_).conseq (fun _ h => h)
      (fun host s ⟨serial, hid, _, hs⟩ => ?_) (fun e s hs => ⟨hnone, hs.1⟩) fun _ h => h
    · refine ⟨⟨hN w hw.1.base, hB w _ hs (.map ..) hw.1.base, Nat.lt_succ_self _,
        fun _ c a ⟨ha, hc, n, hn, hbuf⟩ => ?_⟩, hw.2⟩
      have := hw.1.known a (List.mem_of_getElem? ha) n hn
      rw [hbuf] at this
      exact absurd this (Nat.lt_irrefl _)
    · change HostOf N slot host.id ∧ Ready (fun w => Usable E B host.id w ∧ _) fr held [] s
      rw [hid]
      exact ⟨.inr ⟨hnone, rfl, hs.world.1.1⟩, hs.mono fun w hw => ⟨hw.1.2, hw.2⟩⟩

/-- Slot `i` once the commands `own` have been pushed from `host`. -/
def Frame.stage (fr : Frame) (i : ℕ) (host : Option DmaHostBuffer) (own : List Accepted) : Frame :=
  { fr.setSlot i fun s =>
      { s with host := host, owner := (own.getLast?.map (·.cmd.tagId)).or s.owner } with
    pending := own.map (·.cmd.tagId) }

theorem Frame.stage_none (hp : fr.pending = []) (i : ℕ) :
    fr.stage i none [] = fr.setSlot i fun s => { s with host := none } := by
  cases fr
  simp_all [Frame.stage, Frame.setSlot]

/-- The three updates of a slot come to one. -/
theorem Frame.stage_eq (i : ℕ) (host : DmaHostBuffer) (own : List Accepted) :
    Frame.setSlot (Frame.setSlot
        { fr.setSlot i fun s => { s with host := none } with pending := own.map (·.cmd.tagId) } i
        fun s => { s with host := some host }) i
      (fun s => { s with owner := (own.map (·.cmd.tagId)).getLast?.or s.owner }) =
      fr.stage i (some host) own := by
  simp only [Frame.setSlot, Frame.stage, List.modify_modify_eq, List.getLast?_map]
  rfl

/-- What is known of the commands pushed for the arguments of a slot. -/
def StagesArgs (E : Env) (N : ℕ) (slot : ArgsSlot) (sqIndex : UInt16) (args : List UInt8)
    (b : BufId) (len : ℕ) (own : List Accepted) : Prop :=
  HostOf N slot b ∧ Stages .write sqIndex b slot.region.addr own len ∧
    ∀ a ∈ own, E.strict .arguments → Payload (fun x => args.getD (x - slot.region.addr) 0) a

theorem pushArgsDma_spec (acc : List Accepted) {i : ℕ} {args : List UInt8} {sqIndex : UInt16}
    (hB : Stable E B)
    (hN : ∀ w, B w → N ≤ w.nextBuf) (hp : fr.pending = []) (hslot : fr.argsSlots[i]? = some slot)
    (hhost : ∀ host, slot.host = some host → host.id.purpose = .arguments)
    (hE : ∀ b a, HostOf N slot b →
      Carries .write sqIndex (· = b) slot.region.addr args.length a →
      (E.strict .arguments → Payload (fun x => args.getD (x - slot.region.addr) 0) a) →
      a.cmd.tagId ∉ rest → E.accepts a) :
    Triple (Tidy (fun w => SlotReady E B slot w ∧ w.accepted = acc) fr rest)
      (pushArgsDma i args sqIndex)
      (Ends (fun addr s => addr = slot.region.addr ∧ ∃ host own,
          StagesArgs E N slot sqIndex args host.id args.length own ∧
          Tidy (fun w => (B w ∧ host.id.serial < w.nextBuf) ∧ w.accepted = acc ++ own)
            (fr.stage i (some host) own) rest s)
        fun _ s => (slot.host = none ∧
            Tidy (fun w => B w ∧ w.accepted = acc) (fr.stage i none []) rest s) ∨
          ∃ host own len, len ≤ args.length ∧
            StagesArgs E N slot sqIndex args host.id len own ∧
            Tidy (fun w => (B w ∧ host.id.serial < w.nextBuf) ∧ w.accepted = acc ++ own)
              (fr.stage i (some host) own) rest s) := by
  refine .read_bind fun dev => .intro (p := dev.argsSlots = fr.argsSlots) (fun s hs => ?_)
    fun hslots => ?_
  · obtain ⟨hs, rfl⟩ := hs
    exact congrArg Frame.argsSlots hs.frame
  rw [hslots, hslot]
  refine .bind (R := fun a s => a = slot ∧
    Tidy (fun w => SlotReady E B slot w ∧ w.accepted = acc) fr rest s)
    (.pure fun s hs => ⟨rfl, hs.1⟩) fun a => .intro (fun _ h => h.1) fun ha => ?_
  subst ha
  have hpurpose : ∀ b, HostOf N a b → b.purpose = .arguments := by
    rintro b (⟨host, hh, rfl⟩ | ⟨-, hb, -⟩)
    · exact hhost host hh
    · exact hb
  refine .bind (setSlot_spec.pre fun _ h => h.2) fun _ => ?_
  refine .bind ((slotHost_spec hB hN).conseq (fun _ h => h) (fun _ _ h => h) (fun e s h => ?_)
    fun _ h => h) fun host => .intro (fun _ h => h.1) fun hof => ?_
  · refine .inl ⟨h.1, ?_⟩
    rw [Frame.stage_none hp]
    exact h.2.mono fun w hw => ⟨hw.1.base, hw.2⟩
  -- The buffer is free, so the arguments can be written to it.
  let data : Memory := fun x => args.getD (x - a.region.addr) 0
  have hbuf : host.id.purpose = .arguments := hpurpose _ hof
  refine .bind (R := fun _ => Tidy (fun w => Loaded E B host.id a.region.addr args.length data w ∧
      w.accepted = acc) (fr.setSlot i fun s => { s with host := none }) rest)
    ((writeHost_spec ((patient_usable hB).and (.accepted acc)) fun w hs hw => ?_).pre
      fun _ h => h.2) fun _ => ?_
  · refine ⟨⟨hB w _ hs (.fill _ _ hw.1.quiescent) hw.1.base, hw.1.mapped,
      fun hst => (hw.1.quiescent hst).only true, fun _ k hk => ?_⟩, hw.2⟩
    change update w.host host.id _ host.id k = args.getD (a.region.addr + k - a.region.addr) 0
    rw [update_self, Spans.blit_inside (Nat.zero_le k) (by omega), Nat.add_sub_cancel_left,
      Nat.zero_add, Nat.sub_zero]
  refine .bind (R := fun r s => ∃ own len, len ≤ args.length ∧ (r = .ok () → len = args.length) ∧
      StagesArgs E N a sqIndex args host.id len own ∧
      Tidy (fun w => (B w ∧ host.id.serial < w.nextBuf) ∧ w.accepted = acc ++ own)
        { fr.setSlot i fun s => { s with host := none } with pending := own.map (·.cmd.tagId) }
        rest s) (.attempt ((pushWrite_spec hB .true
      (fun _ _ _ _ _ _ => trivial)
      fun a' ha' hpay hfresh => hE host.id a' hof ha' (hbuf ▸ hpay) hfresh).conseq
      (fun s hs => hs.mono fun w hw => ⟨⟨hw.1, trivial⟩, hw.2⟩)
      (fun _ s ⟨own, hpay, hstages, hs⟩ => ⟨own, args.length, Nat.le_refl _, fun _ => rfl,
        ⟨hof, hstages, hbuf ▸ hpay⟩, ?_⟩)
      (fun e s ⟨own, off, hoff, hpay, hstages, hs⟩ => ⟨own, off, hoff, by simp,
        ⟨hof, hstages, hbuf ▸ hpay⟩, ?_⟩) fun _ h => h)) fun pushed => ?_
  · have htags : (fr.setSlot i fun s => { s with host := none }).pending ++
        own.map (·.cmd.tagId) = own.map (·.cmd.tagId) := by
      rw [show (fr.setSlot i _).pending = fr.pending from rfl, hp, List.nil_append]
    rw [htags] at hs
    exact hs.mono fun w hw => ⟨⟨hw.1.1.base, hw.1.1.mapped⟩, hw.2⟩
  · have htags : (fr.setSlot i fun s => { s with host := none }).pending ++
        own.map (·.cmd.tagId) = own.map (·.cmd.tagId) := by
      rw [show (fr.setSlot i _).pending = fr.pending from rfl, hp, List.nil_append]
    rw [htags] at hs
    exact hs.mono fun w hw => ⟨⟨hw.1.1.base, hw.1.1.mapped⟩, hw.2⟩
  refine .exists_pre fun own => .exists_pre fun len => .intro (fun _ h => h.1) fun hle =>
    .intro (fun _ h => h.2.1) fun hlen => .intro (fun _ h => h.2.2.1) fun hstages => ?_
  refine .bind (setSlot_spec.pre fun _ h => h.2.2.2) fun _ => getPending_bind ?_
  refine .bind assignOwner_spec fun _ => ?_
  refine .ofExcept (fun addr haddr s hs => ?_) fun e he s hs => .inr ⟨host, own, len, hle, hstages, ?_⟩
  · cases pushed with
    | error e => simp [Except.map] at haddr
    | ok u =>
      refine ⟨(Except.ok.inj haddr).symm, host, own, hlen rfl ▸ hstages, ?_⟩
      rw [← Frame.stage_eq]
      exact hs
  · rw [← Frame.stage_eq]
    exact hs

end EtSoc

import EtSoc.Verification.Launch.Waits
import EtSoc.Verification.Session.Heap
import EtSoc.Verification.Wire.Pushing

/-! # The commands of a launch and of a reset -/

namespace EtSoc

open Function Program

/-! ## What stays -/

/-- What has been taken, what is pending, and where the argument slots lie. -/
def Placing (acc : List Accepted) (tags : List Tag) (regions : List DeviceRegion) (s : Sys) : Prop :=
  Taken acc tags s ∧ s.dev.argsSlots.map (·.region) = regions

variable {acc own : List Accepted} {tags : List Tag} {regions : List DeviceRegion}
  {α : Type} {m : M α}

theorem deaf_regions (regions : List DeviceRegion) : Deaf (fun _ => True) (fun _ => True)
    fun s => s.dev.argsSlots.map (·.region) = regions where
  waiting := trivial
  panics := fun _ _ => trivial
  act := fun _ _ _ h => h
  map := fun _ _ _ _ h => h
  fill := fun _ _ _ h => h
  unmapped := fun _ _ h => h
  staging := fun _ _ _ h => h
  taken := fun _ _ _ h => h
  tags := fun _ _ _ _ _ h => h
  log := fun _ _ h => h
  cut := fun _ _ h => h
  pop := fun _ _ h => h
  offer := fun _ _ _ h => h
  accept := fun _ _ _ _ _ h => h
  peak := fun _ _ _ h => h

/-- A step that moves no slot. -/
theorem places {P : Sys → Prop} {R : α → Sys → Prop} (hm : Triple P m (Returns R))
    (hregions : Triple (fun s => s.dev.argsSlots.map (·.region) = regions) m
      (Always (fun _ => True) fun s => s.dev.argsSlots.map (·.region) = regions)) :
    Triple (fun s => P s ∧ s.dev.argsSlots.map (·.region) = regions) m
      (Returns fun a s => R a s ∧ s.dev.argsSlots.map (·.region) = regions) :=
  (hm.both hregions).conseq (fun _ h => h) (fun _ _ h => h) (fun _ _ _ => trivial) fun _ _ => trivial

/-- A step that gives nothing to the queue. -/
theorem places_taken (hm : Triple (Taken acc tags) m (Always (fun _ => True) (Taken acc tags)))
    (hregions : Triple (fun s => s.dev.argsSlots.map (·.region) = regions) m
      (Always (fun _ => True) fun s => s.dev.argsSlots.map (·.region) = regions)) :
    Triple (Placing acc tags regions) m (Returns fun _ => Placing acc tags regions) :=
  places (hm.conseq (fun _ h => h) (fun _ _ h => h) (fun _ _ _ => trivial) fun _ _ => trivial) hregions

theorem setSlot_placing {i : ℕ} {f : ArgsSlot → ArgsSlot}
    (hf : ∀ slot, (f slot).region = slot.region := by exact fun _ => rfl) :
    Triple (Placing acc tags regions) (setSlot i f) (Returns fun _ => Placing acc tags regions) :=
  .modify fun _ hs => ⟨hs.1, (map_region_modify hf).trans hs.2⟩

theorem orAbandon_returns {P : Sys → Prop} {R : α → Sys → Prop} (hm : Triple P m (Returns R)) :
    Triple P (orAbandon m) (Returns R) :=
  .attempt_bind hm (fun _ => .pure fun _ h => h) fun _ =>
    .bind (R := fun _ _ => True) .returns fun _ => .throw fun _ _ => trivial

/-! ## Arguments -/

/-- The commands that write the arguments of a launch to slot `slot` at `pointerToArgs`. -/
inductive ArgsSent (opts : LaunchOptions) (regions : List DeviceRegion) :
    Option ℕ → ℕ → List Accepted → Prop where
  | bare (h : opts.args = []) : ArgsSent opts regions none 0 []
  | staged {i region b own} (hargs : opts.args ≠ []) (hregion : regions[i]? = some region)
      (hlen : opts.args.length ≤ region.size)
      (hown : Stages .write opts.sqIndex b region.addr own opts.args.length) :
      ArgsSent opts regions (some i) region.addr own

/-- The tags of its argument commands that a launch leaves pending. -/
def LaunchOptions.leftPending (opts : LaunchOptions) (own : List Accepted) : List Tag :=
  if opts.barrier then own.map (·.cmd.tagId) else []

/-- A slot is found for the arguments, and nothing is given to a queue. -/
theorem argsSlot_sent {len : ℕ} : Triple (Taken acc tags) (argsSlot len)
    (Returns fun i s => ∃ regions region, Placing acc tags regions s ∧ regions[i]? = some region ∧
      len ≤ region.size) := by
  refine .read_bind fun dev => ?_
  cases hreusable : reusableSlot dev.argsSlots dev.outstanding len with
  | some i =>
    obtain ⟨slot, hslot, hlen, -⟩ := reusableSlot_eq_some hreusable
    refine .pure fun s hs => ⟨_, slot.region, ⟨hs.1, rfl⟩, ?_, hlen⟩
    rw [hs.2, List.getElem?_map, hslot]
    rfl
  | none =>
    have halloc : Triple (fun s => Taken acc tags s) (alloc len)
        (Returns fun region s => region.size = len ∧ Taken acc tags s) :=
      (alloc_triple (H := fun _ => True) trivial fun s region hs hhands => ⟨hhands.len, hs⟩).conseq
        (fun _ h => h) (fun _ _ h => h) (fun _ _ _ => trivial) fun _ _ => trivial
    refine .bind (halloc.pre fun _ h => h.1) fun region => .and_pre fun hlen => .read_bind fun dev =>
      .bind (R := fun _ s => s.dev.argsSlots = dev.argsSlots ++ [⟨region, none, none⟩] ∧
        Taken acc tags s) (.modify fun s hs => ⟨?_, hs.1⟩) fun _ => .pure fun s hs => ?_
    · rw [← hs.2]
    · refine ⟨_, region, ⟨hs.2, rfl⟩, ?_, hlen.ge⟩
      simp [hs.1]

/-- What `pushDmaStaged` gives to a queue, if it returns. -/
theorem pushDmaStaged_sent (direction : Direction) (host : DmaHostBuffer) (len addr : ℕ)
    (opts : DmaOptions) : Triple (Placing acc tags regions) (pushDmaStaged direction host len addr opts)
      (Returns fun _ s => ∃ own, Stages direction opts.sqIndex host.id addr own len ∧
        Placing (acc ++ own) (tags ++ own.map (·.cmd.tagId)) regions s) := by
  have hpush : Triple (Taken acc tags) (pushDmaStaged direction host len addr opts)
      (Returns fun _ s => ∃ own, Stages direction opts.sqIndex host.id addr own len ∧
        Taken (acc ++ own) (tags ++ own.map (·.cmd.tagId)) s) := by
    refine .fix fun s₀ hs₀ => ?_
    have hreports : Triple (fun s => s = s₀) (pushDmaStaged direction host len addr opts)
        (Reports s₀ direction opts.sqIndex host.id addr len) := by
      rintro _ rfl
      exact pushDmaStaged_reports direction host len addr opts _
    refine hreports.conseq (fun _ h => h) (fun _ s ⟨own, hchunk⟩ => ?_) (fun _ _ _ => trivial)
      fun _ _ => trivial
    refine ⟨own, hchunk.stages, ?_⟩
    rw [← hs₀.1, ← hs₀.2]
    exact hchunk.taken
  refine (places hpush ((deaf_regions regions).pushDmaStaged (fun _ _ h => h) (fun _ _ h => h) trivial
    (fun _ => trivial) direction host len addr opts)).conseq (fun _ h => h) (fun _ s hs => ?_)
      (fun _ _ h => h) fun _ h => h
  obtain ⟨⟨own, hown, hs⟩, hregions⟩ := hs
  exact ⟨own, hown, hs, hregions⟩

theorem pushArgsDma_sent {i : ℕ} {region : DeviceRegion} {args : List UInt8} {sqIndex : UInt16}
    (hregion : regions[i]? = some region) : Triple (Placing acc [] regions)
      (pushArgsDma i args sqIndex) (Returns fun addr s => addr = region.addr ∧ ∃ b own,
        Stages .write sqIndex b region.addr own args.length ∧
          Placing (acc ++ own) (own.map (·.cmd.tagId)) regions s) := by
  have htaken := deaf_taken acc []
  have hregions := deaf_regions regions
  refine .read_bind fun dev => .bind (R := fun slot s => slot.region = region ∧
    Placing acc [] regions s) ?_ fun slot => .and_pre fun hslot => ?_
  · cases hslot : dev.argsSlots[i]? with
    | none => exact .panic fun _ _ => trivial
    | some slot =>
      refine .pure fun s hs => ⟨?_, hs.1⟩
      rw [← hs.1.2, hs.2, List.getElem?_map, hslot] at hregion
      exact Option.some.inj hregion
  subst hslot
  refine .bind setSlot_placing fun _ => .bind (R := fun _ => Placing acc [] regions) ?_ fun host => ?_
  · unfold slotHost
    split
    · exact .pure fun _ h => h
    · exact places_taken (htaken.toAloof.unstaged.dmaHostBuffer (by decide) _)
        (hregions.toAloof.unstaged.dmaHostBuffer (by decide) _)
  refine .bind (places_taken (htaken.toAloof.unstaged.writeHost _ _ _)
    (hregions.toAloof.unstaged.writeHost _ _ _)) fun _ => .attempt_bind
      (pushDmaStaged_sent _ _ _ _ _) (fun _ => ?_) fun _ => ?_
  · refine .exists_pre fun own => .and_pre fun hown => .bind setSlot_placing fun _ =>
      .read_bind fun tags => .bind (R := fun _ => Placing (acc ++ own) (own.map (·.cmd.tagId)) regions)
        ?_ fun _ => .ofExcept (fun addr haddr s hs => ⟨?_, host.id, own, hown, hs⟩)
          fun _ _ _ _ => trivial
    · cases tags.getLast? with
      | some tag => exact Triple.pre setSlot_placing fun _ h => h.1
      | none => exact .pure fun _ h => h.1
    · exact (Except.ok.inj haddr).symm
  · exact .bind (R := fun _ _ => True) .returns fun _ => .read_bind fun _ =>
      .bind (R := fun _ _ => True) .returns fun _ => .ofExcept (fun _ h => by simp [Except.map] at h)
        fun _ _ _ _ => trivial

theorem awaitArgs_sent (opts : LaunchOptions) : Triple
    (Placing (acc ++ own) (own.map (·.cmd.tagId)) regions) (awaitArgs opts)
    (Returns fun _ => Placing (acc ++ own) (opts.leftPending own) regions) := by
  unfold LaunchOptions.leftPending
  refine .ite (fun h => .pure fun s hs => by rwa [if_pos h]) fun h => ?_
  rw [if_neg h]
  refine .read_bind fun tags => .read_bind fun tags' => .intro
    (p := tags' = own.map (·.cmd.tagId) ∧ tags = tags') (fun s hs => ⟨?_, hs.1.2.symm.trans hs.2⟩)
    fun ⟨htags, heq⟩ => .ite (fun _ => .panic fun _ _ => trivial) fun _ =>
      .modify_bind (R := Placing (acc ++ own) [] regions) (fun s hs => ⟨⟨hs.1.1.1.1, ?_⟩, hs.1.1.2⟩)
        (places_taken ((deaf_taken _ _).awaitEach _ _ _) ((deaf_regions _).awaitEach _ _ _))
  · exact hs.2.symm.trans hs.1.1.1.2
  · rw [heq]
    exact List.drop_length

/-- What the staging of arguments gives to a queue, if it returns. -/
theorem stageArgs_sent (opts : LaunchOptions) : Triple (Taken acc []) (stageArgs opts)
    (Returns fun r s => ∃ regions own, ArgsSent opts regions r.1 r.2 own ∧
      Placing (acc ++ own) (opts.leftPending own) regions s) := by
  refine .ite (fun hempty => .pure fun s hs => ⟨_, [], .bare (List.isEmpty_iff.1 hempty), ?_, rfl⟩)
    fun hargs => .bind argsSlot_sent fun i => .exists_pre fun regions => .exists_pre fun region => ?_
  · simpa [LaunchOptions.leftPending] using hs
  refine .intro (fun _ h => h.2) fun ⟨hregion, hlen⟩ => ?_
  refine .bind (R := fun addr s => addr = region.addr ∧ ∃ b own,
    Stages .write opts.sqIndex b region.addr own opts.args.length ∧
      Placing (acc ++ own) (opts.leftPending own) regions s) (orAbandon_returns ?_)
    fun addr => .and_pre fun haddr => .pure fun s ⟨b, own, hown, hs⟩ => ?_
  · refine .bind ((pushArgsDma_sent hregion).pre fun _ h => h.1) fun addr => .and_pre fun haddr =>
      .exists_pre fun b => .exists_pre fun own => .and_pre fun hown => .bind (awaitArgs_sent opts)
        fun _ => .pure fun s hs => ⟨haddr, b, own, hown, hs⟩
  · subst haddr
    exact ⟨regions, own, .staged (by simpa using hargs) hregion hlen hown, hs⟩

/-! ## Launches -/

/-- `slot` holds the arguments of the launch `tag`, which the commands `own` write there. -/
structure HoldsArgs (opts : LaunchOptions) (tag : Tag) (own : List Accepted) (slot : ArgsSlot) :
    Prop where
  owner : slot.owner = some tag
  size : opts.args.length ≤ slot.region.size
  staged : ∃ b, Stages .write opts.sqIndex b slot.region.addr own opts.args.length

/-- A launch has given a queue the commands `own` for its arguments, then its own command `a`. -/
structure LaunchSent (kernel : LoadedKernel) (opts : LaunchOptions) (acc own : List Accepted)
    (pointerToArgs : ℕ) (a : Accepted) (launch : PendingLaunch) (s : Sys) : Prop where
  taken : Taken (acc ++ own ++ [a]) [] s
  isLaunch : IsLaunch kernel opts pointerToArgs a
  tag : a.cmd.tagId = launch.tag
  argsDma : launch.argsDma = opts.leftPending own
  args : if opts.args = [] then own = [] ∧ pointerToArgs = 0 else
    ∃ slot ∈ s.dev.argsSlots, slot.region.addr = pointerToArgs ∧ HoldsArgs opts launch.tag own slot

/-- The slot of a launch becomes its own. -/
theorem assignSlot_sent {slot : Option ℕ} {pointerToArgs : ℕ} {opts : LaunchOptions} {tag : Tag}
    (hargs : ArgsSent opts regions slot pointerToArgs own) : Triple (Placing acc tags regions)
      (assignSlot slot tag) (Returns fun _ s => Taken acc tags s ∧
        if opts.args = [] then own = [] ∧ pointerToArgs = 0 else ∃ slot ∈ s.dev.argsSlots,
          slot.region.addr = pointerToArgs ∧ HoldsArgs opts tag own slot) := by
  cases hargs with
  | bare h => exact .pure fun s hs => ⟨hs.1, by rw [if_pos h]; exact ⟨rfl, rfl⟩⟩
  | @staged i region b own hargs hregion hlen hown =>
    refine .modify fun s hs => ⟨hs.1, ?_⟩
    obtain ⟨-, rfl⟩ := hs
    obtain ⟨slot, hslot, rfl⟩ := Option.map_eq_some_iff.1 (List.getElem?_map.symm.trans hregion)
    rw [if_neg hargs]
    refine ⟨{ slot with owner := some tag }, ?_, rfl, rfl, hlen, b, hown⟩
    refine List.mem_of_getElem? (i := i) ?_
    simp [hslot]

/-- If a launch returns, its command bears the tag of its handle. -/
theorem launchAsync_sent {kernel : LoadedKernel} {opts : LaunchOptions} {s s' : Sys}
    {launch : PendingLaunch} (hrun : launchAsync kernel opts s = (.ok launch, s')) :
    ∃ own pointerToArgs a,
      LaunchSent kernel opts s.world.accepted own pointerToArgs a launch s' := by
  have hlaunch : Triple (fun t => t = s) (launchAsync kernel opts) (Returns fun launch t =>
      ∃ own pointerToArgs a,
        LaunchSent kernel opts s.world.accepted own pointerToArgs a launch t) := by
    refine .modify_bind (R := Taken s.world.accepted []) (fun t ht => ht ▸ ⟨rfl, rfl⟩)
      (.bind (stageArgs_sent opts) fun (slot, pointerToArgs) => .exists_pre fun regions =>
        .exists_pre fun own => .and_pre fun hargs => ?_)
    have hdeaf := deaf_taken (s.world.accepted ++ own) (opts.leftPending own)
    refine .bind (orAbandon_returns (places_taken hdeaf.nextTag (deaf_regions regions).nextTag))
      fun tag => ?_
    cases hcmd : buildKernelLaunch tag opts.flags kernel.codeStartAddress pointerToArgs
      opts.exceptionBuffer opts.shireMask opts.payload with
    | none => exact .bind (R := fun _ _ => False) (.panic fun _ _ => trivial) fun _ _ h => h.elim
    | some cmd =>
      refine .bind (R := fun c t => c = cmd ∧ Placing _ _ regions t) (.pure fun _ h => ⟨rfl, h⟩)
        fun c => .and_pre fun hc => ?_
      subst hc
      have hpush : Triple (Taken (s.world.accepted ++ own) (opts.leftPending own))
          (pushCmd opts.sqIndex c 0 tag) (Returns fun _ t => ∃ host, Taken
            (s.world.accepted ++ own ++ [⟨opts.sqIndex, 0, c, host⟩]) (opts.leftPending own) t) :=
        pushCmd_taken.conseq (fun _ h => h) (fun _ _ h => h) (fun _ _ _ => trivial) fun _ _ => trivial
      refine .bind (orAbandon_returns (places hpush ((deaf_regions regions).pushCmd trivial)))
        fun _ => .pre (P := fun t => ∃ host, Placing
          (s.world.accepted ++ own ++ [⟨opts.sqIndex, 0, c, host⟩]) (opts.leftPending own) regions t)
          (.exists_pre fun host => ?_) fun t ⟨⟨host, ht⟩, hregions⟩ => ⟨host, ht, hregions⟩
      obtain ⟨htag, his⟩ := buildKernelLaunch_eq_some hcmd host
      refine .bind (assignSlot_sent hargs) fun _ => .read_bind fun dev => .read_bind fun argsDma =>
        .modify_bind (R := fun t => argsDma = opts.leftPending own ∧ LaunchSent kernel opts
          s.world.accepted own pointerToArgs ⟨opts.sqIndex, 0, c, host⟩
            ⟨tag, opts.leftPending own, opts.timeout.getD dev.defaultTimeout⟩ t)
          (fun t ht => ?_) (.pure fun t ht => ?_)
      · obtain ⟨⟨⟨⟨hacc, hpending⟩, hheld⟩, -⟩, hargsDma⟩ := ht
        exact ⟨hargsDma.symm.trans hpending, ⟨hacc, rfl⟩, his, htag, rfl, hheld⟩
      · obtain ⟨rfl, hsent⟩ := ht
        exact ⟨own, pointerToArgs, _, hsent⟩
  exact hlaunch.of_ok rfl hrun

/-! ## Resets -/

/-- A reset has given a queue its command `a`, and has collected the answer to the tag of it. -/
structure ResetSent (shireMask : ℕ) (acc : List Accepted) (a : Accepted) (rsp : PoppedResponse)
    (s : Sys) : Prop where
  accepted : s.world.accepted = acc ++ [a]
  isReset : IsReset shireMask a
  collected : s.log.head? = some (.collected a.cmd.tagId rsp)
  success : cmResetResponseStatus rsp.bytes = some cmResetSuccess

/-- If a reset returns, its command was answered with success. -/
theorem resetShires_sent {shireMask : ℕ} {s s' : Sys}
    (hrun : resetShires shireMask s = (.ok (), s')) :
    ∃ a rsp, ResetSent shireMask s.world.accepted a rsp s' := by
  have hreset : Triple (fun t => t = s) (resetShires shireMask) (Returns fun _ t =>
      ∃ a rsp, ResetSent shireMask s.world.accepted a rsp t) := by
    have hdeaf := deaf_taken s.world.accepted s.pending
    refine .bind (R := fun _ => Taken s.world.accepted s.pending)
      ((keeps_taken hdeaf.nextTag).conseq (fun t ht => ht ▸ ⟨rfl, rfl⟩) (fun _ _ h => h)
        (fun _ _ _ => trivial) fun _ h => h) fun tag => ?_
    cases hcmd : buildCmReset tag shireMask with
    | none => exact .bind (R := fun _ _ => False) (.panic fun _ _ => trivial) fun _ _ h => h.elim
    | some cmd =>
      refine .bind (R := fun c t => c = cmd ∧ Taken s.world.accepted s.pending t)
        (.pure fun _ h => ⟨rfl, h⟩) fun c => .and_pre fun hc => .read_bind fun dev => ?_
      subst hc
      refine .bind (R := fun rsp t => ∃ a, t.world.accepted = s.world.accepted ++ [a] ∧
        IsReset shireMask a ∧ t.log.head? = some (.collected a.cmd.tagId rsp)) ?_ fun rsp => ?_
      · refine .bind (pushCmd_taken.conseq (fun _ h => h.1) (fun _ _ h => h) (fun _ _ _ => trivial)
          fun _ _ => trivial) fun _ => .exists_pre fun host => ?_
        obtain ⟨htag, his⟩ := buildCmReset_eq_some hcmd host
        refine ((keeps_taken ((deaf_taken _ _).collectResponse _ _ _)).both
          (collectResponse_records (P := fun _ => True) tag _ _)).conseq (fun _ h => ⟨h, trivial⟩)
            (fun rsp t ht => ⟨_, ht.1.1, his, ?_⟩) (fun _ _ _ => trivial) fun _ _ => trivial
        rw [ht.2]
        exact congrArg (fun tag => some (QueueEvent.collected tag rsp)) htag.symm
      · cases hstatus : cmResetResponseStatus rsp.bytes with
        | none => exact .throw fun _ _ => trivial
        | some status =>
          refine .ite (fun _ => .throw fun _ _ => trivial) fun hne => .pure fun t ht => ?_
          obtain ⟨a, hacc, his, hlog⟩ := ht
          exact ⟨a, rsp, hacc, his, hlog, hstatus.trans (congrArg some (not_not.1 hne))⟩
  exact hreset.of_ok rfl hrun

end EtSoc

import EtSoc.Verification.Session.Deliveries
import EtSoc.Verification.Session.Accepting
import EtSoc.Verification.Tags.Steps

/-! # How many argument slots there are -/

namespace EtSoc

open Function Program

variable {a k n : ℕ} {O : Finset Tag} {tag : Tag}

/-! ## What a launch leaves outstanding -/

/-- Since the tags `O` were outstanding and `a` commands accepted, no command was pushed, or
more tags than those of `O` were outstanding at once. -/
def Surpasses (a : ℕ) (O : Finset Tag) (s : Sys) : Prop :=
  (s.world.accepted.length = a ∧ O ⊆ s.dev.outstanding ∧ s.pending = []) ∨ O.card < s.peak

/-- The same, with `tag` just reserved. -/
def Poised (a : ℕ) (O : Finset Tag) (tag : Tag) (s : Sys) : Prop :=
  (s.world.accepted.length = a ∧ insert tag O ⊆ s.dev.outstanding ∧ tag ∉ O ∧ s.pending = []) ∨
    O.card < s.peak

theorem Poised.surpasses {s : Sys} (h : Poised a O tag s) : Surpasses a O s :=
  h.imp_left fun ⟨ha, hO, _, hp⟩ => ⟨ha, (Finset.subset_insert ..).trans hO, hp⟩

theorem numb_peak (k : ℕ) : Numb (fun _ => True) (fun _ => True) fun s => k ≤ s.peak where
  waiting := trivial
  panics := fun _ _ => trivial
  act := fun _ _ _ h => h
  fill := fun _ _ _ h => h
  tags := fun _ _ _ _ _ h => h
  log := fun _ _ h => h
  cut := fun _ _ h => h
  pop := fun _ _ h => h
  offer := fun _ _ _ h => h
  accept := fun _ _ _ _ _ h => h
  peak := fun _ _ hle h => h.trans hle

theorem remote_surpasses (a : ℕ) (O : Finset Tag) : Remote (fun _ => True) (Surpasses a O) where
  waiting := trivial
  panics := fun _ _ => trivial
  act := fun s _ ds h => by
    unfold Surpasses
    rw [World.steps_accepted]
    exact h
  fill := fun _ _ _ h => h

theorem remote_poised (a : ℕ) (O : Finset Tag) (tag : Tag) :
    Remote (fun _ => True) (Poised a O tag) where
  waiting := trivial
  panics := fun _ _ => trivial
  act := fun s _ ds h => by
    unfold Poised
    rw [World.steps_accepted]
    exact h
  fill := fun _ _ _ h => h

theorem nextTag_surpasses : Triple (Surpasses a O) nextTag
    ⟨fun tag => Poised a O tag, fun _ => Surpasses a O, fun _ s => True ∧ Surpasses a O s⟩ := by
  refine .read_bind fun dev => ?_
  split
  · rename_i tag heq
    rintro s ⟨hs, rfl⟩
    refine hs.imp_left fun ⟨ha, hO, hp⟩ => ⟨ha, Finset.insert_subset_insert _ hO, fun hmem => ?_, hp⟩
    exact freeTag_notMem heq (hO hmem)
  · exact .throw fun s hs => hs.1

/-- How a part of a push ends. -/
def Poising (a : ℕ) (O : Finset Tag) (tag : Tag) {α : Type} : Post Sys Error α :=
  ⟨fun _ => Poised a O tag, fun _ => Poised a O tag, fun _ s => True ∧ Surpasses a O s⟩

theorem poising {α : Type} {m : M α}
    (hm : Triple (Poised a O tag) m (Always (fun _ => True) (Poised a O tag))) :
    Triple (Poised a O tag) m (Poising a O tag) :=
  hm.conseq (fun _ h => h) (fun _ _ h => h) (fun _ _ h => h) fun _ hs => ⟨trivial, hs.2.surpasses⟩

/-- A command is taken while its tag and those of `O` are outstanding. -/
theorem pushSq_surpasses {sqIndex : UInt16} {cmd : Command} {descFlags : UInt8} :
    Triple (Poised a O tag) (pushSq sqIndex cmd descFlags)
      ⟨fun taken s => if taken then O.card < s.peak else Poised a O tag s,
        fun _ => Poised a O tag, fun _ s => True ∧ Surpasses a O s⟩ := by
  refine .modify_bind (R := Poised a O tag) (fun _ hs => hs) (.bind
    (poising (remote_poised a O tag).consult) fun answer =>
      .bind (poising (Remote.decision answer)) fun taken => ?_)
  cases taken with
  | false => exact .pure fun _ hs => hs
  | true =>
    intro s hs
    change O.card < max s.peak s.dev.outstanding.card
    rcases hs with ⟨-, hO, htag, -⟩ | hs
    · have := Finset.card_le_card hO
      rw [Finset.card_insert_of_notMem htag] at this
      omega
    · omega

theorem pushLoop_surpasses {sqIndex : UInt16} {cmd : Command} {descFlags : UInt8}
    (limit : Duration) (m : ℕ) :
    Triple (Poised a O tag) (pushLoop sqIndex cmd descFlags limit m)
      ⟨fun _ s => O.card < s.peak, fun _ => Poised a O tag, fun _ s => True ∧ Surpasses a O s⟩ := by
  have hr := remote_poised a O tag
  induction m with
  | zero => exact .block fun _ hs => ⟨trivial, hs.surpasses⟩
  | succ m ih =>
    refine .bind pushSq_surpasses fun taken => ?_
    cases taken with
    | true => exact .pure fun _ hs => hs
    | false =>
      exact .bind (poising hr.expired) fun late => .ite (fun _ => .throw fun _ hs => hs)
        fun _ => .bind (poising hr.waitReady) fun _ => ih

theorem pushCmd_surpasses {sqIndex : UInt16} {cmd : Command} {descFlags : UInt8} :
    Triple (Poised a O tag) (pushCmd sqIndex cmd descFlags tag)
      ⟨fun _ s => O.card < s.peak, fun _ => Surpasses a O, fun _ s => True ∧ Surpasses a O s⟩ := by
  refine .attempt_bind (.read_bind fun dev => .read_bind fun m =>
    (pushLoop_surpasses dev.defaultTimeout m).pre fun _ hs => hs.1.1) (fun _ => .pure fun _ hs => hs)
      fun e => .modify_bind (R := Surpasses a O) (fun s hs => ?_) (.throw fun _ hs => hs)
  refine hs.imp_left fun ⟨ha, hO, htag, hp⟩ => ⟨ha, fun t ht => Finset.mem_erase.2 ⟨?_, ?_⟩, hp⟩
  · rintro rfl
    exact htag ht
  · exact hO (Finset.mem_insert_of_mem ht)

theorem pushList_surpasses (direction : Direction) (sqIndex : UInt16) (nodes : List DmaNode) :
    Triple (Surpasses a O) (pushList direction sqIndex nodes) (Always (fun _ => True) (Surpasses a O)) := by
  refine .bind nextTag_surpasses fun tag => .bind (R := fun _ => Poised a O tag) ?_ fun cmd =>
    .bind pushCmd_surpasses fun _ => .read_bind fun _ => .modify fun _ hs => .inr hs.1
  cases buildDmaList direction tag CmdFlags.barrier nodes with
  | none => exact .panic fun _ hs => ⟨trivial, hs.surpasses⟩
  | some cmd => exact .pure fun _ hs => hs

theorem pushDmaStaged_surpasses (direction : Direction) (host : DmaHostBuffer) (len addr : ℕ)
    (opts : DmaOptions) : Triple (Surpasses a O) (pushDmaStaged direction host len addr opts)
      (Always (fun _ => True) (Surpasses a O)) := by
  have hr := remote_surpasses a O
  exact .read_bind fun _ => .bind ((hr.maxListNodes fun _ _ h => h).pre fun _ h => h.1) fun _ =>
    hr.pushStagedFrom (pushList_surpasses _ _) _ _ _

/-- Where no command is pending, there is nothing to await or to abandon. -/
theorem streaming_surpasses (a : ℕ) (O : Finset Tag) :
    Streaming (fun _ => True) (Surpasses a O) where
  toRemote := remote_surpasses a O
  push := pushDmaStaged_surpasses
  await count timeout command := by
    have hpeak := (numb_peak (O.card + 1)).awaitDma (fun _ _ h => h) count timeout command
    rintro s (⟨ha, hO, hp⟩ | hs)
    · have hend : Triple (fun t => t = s) (awaitDma count timeout command)
          (Always (fun _ => True) (Surpasses a O)) := by
        refine .read_bind fun tags => .intro (p := tags = []) (fun t ht => ?_) fun htags => ?_
        · rw [← ht.2, ht.1, hp]
        · subst htags
          refine .ite (fun _ => .panic fun t ht => ⟨trivial, .inl ?_⟩) fun _ => ?_
          · rw [ht.1]
            exact ⟨ha, hO, hp⟩
          · rw [List.drop_nil, List.take_nil]
            refine .modify_bind (R := Surpasses a O) (fun t ht => .inl ?_) (.pure fun _ h => h)
            rw [ht.1]
            exact ⟨ha, hO, rfl⟩
      exact hend s rfl
    · have hend : Triple (fun s => O.card + 1 ≤ s.peak) (awaitDma count timeout command)
          (Always (fun _ => True) (Surpasses a O)) :=
        hpeak.conseq (fun _ h => h) (fun _ _ h => .inr h) (fun _ _ h => .inr h)
          fun _ h => ⟨trivial, .inr h.2⟩
      exact hend s hs
  abandonAll := by
    rintro s (⟨ha, hO, hp⟩ | hs)
    · have hend : Triple (fun t => t = s) abandonAll
          ⟨fun _ => Rested (Surpasses a O), fun _ _ => False, fun _ _ => False⟩ := by
        refine .read_bind fun tags => .intro (p := tags = []) (fun t ht => ?_) fun htags => ?_
        · rw [← ht.2, ht.1, hp]
        · subst htags
          refine .modify_bind (R := Rested (Surpasses a O)) (fun t ht => ⟨.inl ?_, rfl⟩)
            (.pure fun _ h => h)
          rw [ht.1]
          exact ⟨ha, hO, rfl⟩
      exact hend s rfl
    · have hpeak : Triple (fun s => O.card + 1 ≤ s.peak) abandonAll
          ⟨fun _ => Rested fun s => O.card + 1 ≤ s.peak, fun _ _ => False, fun _ _ => False⟩ :=
        (numb_peak (O.card + 1)).abandonAll fun _ _ h => h
      have hend : Triple (fun s => O.card + 1 ≤ s.peak) abandonAll
          ⟨fun _ => Rested (Surpasses a O), fun _ _ => False, fun _ _ => False⟩ :=
        hpeak.conseq (fun _ h => h) (fun _ _ h => ⟨.inr h.1, h.2⟩) (fun _ _ h => h) fun _ h => h
      exact hend s hs

theorem submits_surpasses (a : ℕ) (O : Finset Tag) :
    Submits (fun _ => True) (fun _ => True) (fun _ => True) (Surpasses a O) (Poised a O) where
  toStreaming := streaming_surpasses a O
  mapOther _ _ _ _ h := h
  unmapped _ _ h := h
  idle _ hs := hs.imp_left fun ⟨ha, hO, _⟩ => ⟨ha, hO, rfl⟩
  slots _ _ _ _ h := h
  addr _ _ _ _ := trivial
  nextTag := nextTag_surpasses
  pushCmd _ _ _ _ _ := pushCmd_surpasses.conseq (fun _ h => h) (fun _ _ h => .inr h)
    (fun _ _ h => h) fun _ h => h

/-! ## How many slots a launch adds -/

/-- There are at most `n` slots, and `k` tags were outstanding at once. -/
def Tallied (n k : ℕ) (s : Sys) : Prop := s.dev.argsSlots.length ≤ n ∧ k ≤ s.peak

theorem numb_tallied (n k : ℕ) : Numb (fun _ => True) (fun _ => True) (Tallied n k) where
  waiting := trivial
  panics := fun _ _ => trivial
  act := fun _ _ _ h => h
  fill := fun _ _ _ h => h
  tags := fun _ _ _ _ _ h => h
  log := fun _ _ h => h
  cut := fun _ _ h => h
  pop := fun _ _ h => h
  offer := fun _ _ _ h => h
  accept := fun _ _ _ _ _ h => h
  peak := fun _ _ hle h => ⟨h.1, h.2.trans hle⟩

theorem submits_tallied (n k : ℕ) : Submits (fun _ => True) (fun _ => True) (fun _ => True)
    (Tallied n k) fun _ => Tallied n k :=
  (numb_tallied n k).submits ⟨(numb_tallied n k).toRemote, fun _ _ _ _ h => h, fun _ _ h => h⟩
    (fun _ _ h => h) ((numb_tallied n k).pushDmaStaged (fun _ _ h => h) (fun _ _ h => h) trivial
      fun _ => trivial) (fun s i f _ h => ⟨by simpa using h.1, h.2⟩) fun _ _ _ _ => trivial

/-- A slot is added only where none that is idle will do. -/
theorem argsSlot_tallied {opts : LaunchOptions} (hargs : opts.args ≠ []) (s₀ : Sys)
    (hp : s₀.pending = []) :
    Triple (fun s => s = s₀) (argsSlot opts.args.length) (Calls (fun _ => True)
      (Tallied (s₀.dev.argsSlots.length + if s₀.dev.Lacks opts then 1 else 0) s₀.peak)) := by
  refine (argsSlot_triple (H := fun _ => True) (R := Rested (Tallied (s₀.dev.argsSlots.length +
    if s₀.dev.Lacks opts then 1 else 0) s₀.peak)) trivial ?_ ?_).conseq (fun _ h => h)
      (fun _ _ h => h) ?_ ?_
  · rintro s i - rfl
    exact ⟨⟨Nat.le_add_right .., Nat.le_refl _⟩, hp⟩
  · rintro s region hnone rfl -
    refine ⟨⟨?_, Nat.le_refl _⟩, hp⟩
    simp [if_pos (show s.dev.Lacks opts from ⟨hargs, hnone⟩)]
  · rintro _ s rfl
    exact ⟨⟨Nat.le_add_right .., Nat.le_refl _⟩, hp⟩
  · rintro _ s ⟨-, rfl⟩
    exact ⟨trivial, Nat.le_add_right .., Nat.le_refl _⟩

/-- What a launch does to the slots. -/
theorem launchAsync_slots {kernel : LoadedKernel} {opts : LaunchOptions} (s₀ : Sys)
    (hp : s₀.pending = []) :
    Triple (fun s => s = s₀) (launchAsync kernel opts) (Calls (fun _ => True) fun s =>
      Tallied (s₀.dev.argsSlots.length + if s₀.dev.Lacks opts then 1 else 0) s₀.peak s ∧
        Surpasses s₀.world.accepted.length s₀.dev.outstanding s) := by
  have hbuilds := Call.builds_any (fun _ => True) (.launchAsync kernel opts)
  have hsurpasses : Rested (Surpasses s₀.world.accepted.length s₀.dev.outstanding) s₀ :=
    ⟨.inl ⟨rfl, Finset.Subset.refl _, hp⟩, hp⟩
  have hargs : Triple (Rested (Surpasses s₀.world.accepted.length s₀.dev.outstanding))
      (argsSlot opts.args.length) (Calls (fun _ => True)
        (Surpasses s₀.world.accepted.length s₀.dev.outstanding)) :=
    rested_stops (argsSlot_triple trivial (fun _ _ _ hs => hs) fun _ _ _ hs _ => hs)
  refine (((submits_tallied _ _).launchAsync trivial ?_ (argsSlot_tallied · s₀ hp) hbuilds).both
    ((submits_surpasses _ _).launchAsync trivial ?_
      (fun _ => hargs.pre fun s (hs : s = s₀) => hs ▸ hsurpasses) hbuilds)).conseq
      (fun _ h => ⟨h, h⟩) (fun _ _ h => ⟨⟨h.1.1, h.2.1⟩, h.1.2⟩) (fun _ _ h => ⟨⟨h.1.1, h.2.1⟩, h.1.2⟩)
        fun _ h => ⟨trivial, h.1.2, h.2.2⟩
  · rintro _ rfl
    exact ⟨⟨Nat.le_add_right .., Nat.le_refl _⟩, hp⟩
  · rintro _ rfl
    exact hsurpasses

/-- A launch whose argument command a queue takes adds no slot, or pushes a command. -/
theorem launchAsync_settles {kernel : LoadedKernel} {opts : LaunchOptions} {s₀ : Sys}
    (hp : s₀.pending = []) (hsmall : ∀ nodes ∈ s₀.dev.maxListNodes, Small nodes)
    (hlacks : s₀.dev.Lacks opts) (htakes : s₀.TakesArgs opts.args.length) :
    Triple (fun s => s = s₀) (launchAsync kernel opts)
      (Calls (fun _ => True) (Settles s₀.dev.argsSlots.length s₀.world.accepted.length)) :=
  (submits_settles _ _).launchStaged (A := fun _ => True) (fun s hs => by rw [hs, hp])
    ((stageArgs_settles hp hsmall hlacks htakes).conseq (fun _ h => h)
      (fun _ _ h => ⟨trivial, h⟩) (fun _ _ h => h) fun _ h => h)
    (Call.builds_any (fun _ => True) (.launchAsync kernel opts))

/-! ## The limit on the nodes of a command -/

/-- The limit that the host keeps is one that it may work with. -/
def Sys.Limited (s : Sys) : Prop := ∀ nodes ∈ s.dev.maxListNodes, Small nodes

theorem numb_limited : Numb (fun _ => True) (fun _ => True) Sys.Limited where
  waiting := trivial
  panics := fun _ _ => trivial
  act := fun _ _ _ h => h
  fill := fun _ _ _ h => h
  tags := fun _ _ _ _ _ h => h
  log := fun _ _ h => h
  cut := fun _ _ h => h
  pop := fun _ _ h => h
  offer := fun _ _ _ h => h
  accept := fun _ _ _ _ _ h => h
  peak := fun _ _ _ h => h

theorem maxListNodes_limited :
    Triple Sys.Limited maxListNodes (Always (fun _ => True) Sys.Limited) := by
  refine .read_bind fun dev => .pre (P := Sys.Limited) ?_ fun _ h => h.1
  split
  · exact .pure fun _ h => h
  · refine .bind numb_limited.toRemote.sqMaxMsgSize fun size => .modify_bind (R := Sys.Limited)
      (fun s _ nodes hnodes => ?_) (.pure fun _ h => h)
    obtain rfl := Option.some.inj hnodes
    exact ⟨nodeLimit_pos dev.dram size, size_lt_of_le_nodeLimit (Nat.le_refl _)⟩

theorem submits_limited : Submits (fun _ => True) (fun _ => True) (fun _ => True) Sys.Limited
    fun _ => Sys.Limited :=
  numb_limited.submits ⟨numb_limited.toRemote, fun _ _ _ _ h => h, fun _ _ h => h⟩
    (fun _ _ h => h) (fun _ _ _ _ _ => .read_bind fun _ => .bind
      (maxListNodes_limited.pre fun _ h => h.1) fun _ => numb_limited.toRemote.pushStagedFrom
        (fun _ => numb_limited.pushList (fun _ _ h => h) (.inr trivial) fun _ _ _ => trivial) _ _ _)
    (fun _ _ _ _ h => h) fun _ _ _ _ => trivial

theorem launchAsync_limited {kernel : LoadedKernel} {opts : LaunchOptions} :
    Triple (Rested Sys.Limited) (launchAsync kernel opts) (Calls (fun _ => True) Sys.Limited) :=
  submits_limited.launchAsync trivial (fun _ h => h)
    (fun _ => rested_stops (argsSlot_triple trivial (fun _ _ _ hs => hs) fun _ _ _ hs _ => hs))
    (Call.builds_any (fun _ => True) (.launchAsync kernel opts))

/-! ## The sizes of the slots -/

/-- The sizes of the slots, oldest first. -/
def Sized (sizes : List ℕ) (s : Sys) : Prop := s.dev.argsSlots.map (·.region.size) = sizes

theorem numb_sized (sizes : List ℕ) : Numb (fun _ => True) (fun _ => True) (Sized sizes) where
  waiting := trivial
  panics := fun _ _ => trivial
  act := fun _ _ _ h => h
  fill := fun _ _ _ h => h
  tags := fun _ _ _ _ _ h => h
  log := fun _ _ h => h
  cut := fun _ _ h => h
  pop := fun _ _ h => h
  offer := fun _ _ _ h => h
  accept := fun _ _ _ _ _ h => h
  peak := fun _ _ _ h => h

theorem map_modify_region {slots : List ArgsSlot} {i : ℕ} {f : ArgsSlot → ArgsSlot}
    (hf : ∀ slot, (f slot).region = slot.region) :
    (slots.modify i f).map (·.region.size) = slots.map (·.region.size) := by
  refine List.ext_getElem? fun j => ?_
  simp only [List.getElem?_map, List.getElem?_modify]
  split <;> simp [Function.comp_def, hf]

theorem submits_sized (sizes : List ℕ) : Submits (fun _ => True) (fun _ => True) (fun _ => True)
    (Sized sizes) fun _ => Sized sizes :=
  (numb_sized sizes).submits ⟨(numb_sized sizes).toRemote, fun _ _ _ _ h => h, fun _ _ h => h⟩
    (fun _ _ h => h) ((numb_sized sizes).pushDmaStaged (fun _ _ h => h) (fun _ _ h => h) trivial
      fun _ => trivial) (fun _ _ _ hf h => (map_modify_region hf).trans h) fun _ _ _ _ => trivial

/-- The sizes of the slots after a launch with `len` bytes of arguments, if all are idle. -/
def grown (sizes : List ℕ) (len : ℕ) : List ℕ :=
  if ∃ size ∈ sizes, len ≤ size then sizes else sizes ++ [len]

/-- There is room to allocate `size` bytes. -/
def Device.Room (dev : Device) (size : ℕ) : Prop :=
  dev.next + allocAlignment dev.dram < 2 ^ 64 ∧ dev.dram.base + dev.dram.size < 2 ^ 64 ∧
    PowersOfTwo.alignUp dev.next (allocAlignment dev.dram) + size ≤ dev.dram.base + dev.dram.size

instance (dev : Device) (size : ℕ) : Decidable (dev.Room size) := inferInstanceAs (Decidable (_ ∧ _))

theorem alloc_of_room {size : ℕ} {s : Sys} (h : s.dev.Room size) :
    ∃ region : DeviceRegion, region.size = size ∧ alloc size s = (.ok region, s.allocated region) := by
  obtain ⟨halign, hlimit, hfits⟩ := h
  refine ⟨⟨PowersOfTwo.alignUp s.dev.next (allocAlignment s.dev.dram), size⟩, rfl, ?_⟩
  have hstart : alignUpChecked s.dev.next (allocAlignment s.dev.dram) s =
      (.ok (PowersOfTwo.alignUp s.dev.next (allocAlignment s.dev.dram)), s) := by
    change Prog.bind (u64Add _ _) _ s = _
    rw [u64Add, if_pos halign]
    rfl
  have hstop : dramEnd s.dev.dram s = (.ok (s.dev.dram.base + s.dev.dram.size), s) := by
    rw [dramEnd, u64Add, if_pos hlimit]
    rfl
  change Prog.bind (alignUpChecked s.dev.next (allocAlignment s.dev.dram)) _ s = _
  rw [Prog.bind, hstart]
  change Prog.bind (dramEnd s.dev.dram) _ s = _
  rw [Prog.bind, hstop]
  dsimp only
  rw [if_neg (by omega)]
  rfl

theorem foldl_best_isSome {slots : List (ArgsSlot × ℕ)} (init : Option (ArgsSlot × ℕ))
    (h : slots ≠ [] ∨ init.isSome = true) :
    (slots.foldl (fun best p =>
      match best with
      | some q => if p.1.region.size < q.1.region.size then some p else some q
      | none => some p) init).isSome = true := by
  induction slots generalizing init with
  | nil => simpa using h
  | cons p slots ih =>
    refine ih _ (.inr ?_)
    cases init with
    | none => rfl
    | some q =>
      dsimp only
      split <;> rfl

/-- Where no idle slot will do, each is too small. -/
theorem lt_of_reusableSlot {slots : List ArgsSlot} {outstanding : Finset Tag} {len : ℕ}
    (h : reusableSlot slots outstanding len = none) {slot : ArgsSlot} (hslot : slot ∈ slots)
    (hidle : slot.busy outstanding = false) : slot.region.size < len := by
  by_contra hle
  obtain ⟨i, hi⟩ := List.mem_iff_getElem?.1 hslot
  have hmem : (slot, i) ∈ slots.zipIdx.filter
      fun p => len ≤ p.1.region.size ∧ ¬p.1.busy outstanding :=
    List.mem_filter.2 ⟨List.mem_zipIdx_iff_getElem?.2 hi, by simp [hidle]; omega⟩
  have hsome := foldl_best_isSome none (.inl (List.ne_nil_of_mem hmem))
  rw [reusableSlot, Option.map_eq_none_iff] at h
  exact absurd (hsome.symm.trans (congrArg Option.isSome h)) (by simp)

/-- Where all slots are idle and there is room, a slot is added just where all are too small. -/
theorem argsSlot_sized {opts : LaunchOptions} {sizes : List ℕ} {s₀ : Sys} (hp : s₀.pending = [])
    (hsizes : Sized sizes s₀) (hidle : s₀.dev.outstanding = ∅)
    (hroom : s₀.dev.Lacks opts → s₀.dev.Room opts.args.length) (hargs : opts.args ≠ []) :
    Triple (fun s => s = s₀) (argsSlot opts.args.length)
      (Calls (fun _ => True) (Sized (grown sizes opts.args.length))) := by
  refine .read_bind fun dev => .intro (p := dev = s₀.dev) (fun s hs => by rw [← hs.2, hs.1])
    fun hdev => ?_
  subst hdev
  cases hslot : reusableSlot s₀.dev.argsSlots s₀.dev.outstanding opts.args.length with
  | some i =>
    obtain ⟨slot, hget, hlen, -⟩ := reusableSlot_eq_some hslot
    have hfits : ∃ size ∈ sizes, opts.args.length ≤ size :=
      ⟨slot.region.size, hsizes ▸ List.mem_map_of_mem (List.mem_of_getElem? hget), hlen⟩
    rw [grown, if_pos hfits]
    exact .pure fun s hs => by rw [hs.1]; exact ⟨hsizes, hp⟩
  | none =>
    have hfits : ¬∃ size ∈ sizes, opts.args.length ≤ size := by
      rintro ⟨size, hsize, hle⟩
      obtain ⟨slot, hmem, rfl⟩ := List.mem_map.1 (hsizes ▸ hsize)
      have hbusy : slot.busy s₀.dev.outstanding = false := by
        rw [hidle, ArgsSlot.busy]
        split <;> simp
      exact absurd (lt_of_reusableSlot hslot hmem hbusy) (Nat.not_lt.2 hle)
    obtain ⟨region, hregion, halloc⟩ := alloc_of_room (hroom ⟨hargs, hslot⟩)
    rintro s ⟨rfl, -⟩
    change Post.At _ (Prog.bind (alloc opts.args.length) _ s)
    rw [Prog.bind, halloc, grown, if_neg hfits]
    refine ⟨?_, hp⟩
    change (s.dev.argsSlots ++ [(⟨region, none, none⟩ : ArgsSlot)]).map (·.region.size) = _
    rw [List.map_append, show s.dev.argsSlots.map (·.region.size) = sizes from hsizes]
    simp [hregion]

theorem launchAsync_sized {kernel : LoadedKernel} {opts : LaunchOptions} {sizes : List ℕ} {s₀ : Sys}
    (hp : s₀.pending = []) (hsizes : Sized sizes s₀) (hidle : s₀.dev.outstanding = ∅)
    (hroom : s₀.dev.Lacks opts → s₀.dev.Room opts.args.length) :
    Triple (fun s => s = s₀) (launchAsync kernel opts) (Calls (fun _ => True)
      (Sized (if opts.args = [] then sizes else grown sizes opts.args.length))) := by
  refine (submits_sized _).launchStaged (A := fun _ => True) (fun s hs => by rw [hs, hp])
    ((submits_sized _).stageArgs trivial (fun hnil s hs => ?_) fun hargs => ?_)
    (Call.builds_any (fun _ => True) (.launchAsync kernel opts))
  · rw [hs, if_pos hnil]
    exact hsizes
  · rw [if_neg hargs]
    exact argsSlot_sized hp hsizes hidle hroom hargs

/-! ## Runs -/

/-- Each argument slot is held by an outstanding command of its own. -/
structure Device.Crowded (dev : Device) : Prop where
  busy : ∀ slot ∈ dev.argsSlots, slot.busy dev.outstanding = true
  own : (dev.argsSlots.map (·.owner)).Nodup

theorem Device.Crowded.length_le {dev : Device} (h : dev.Crowded) :
    dev.argsSlots.length ≤ dev.outstanding.card := by
  have hsub : (dev.argsSlots.map (·.owner)).toFinset ⊆ dev.outstanding.image some := by
    intro owner howner
    obtain ⟨slot, hslot, rfl⟩ := List.mem_map.1 (List.mem_toFinset.1 howner)
    have hbusy := h.busy slot hslot
    unfold ArgsSlot.busy at hbusy
    split at hbusy
    · rename_i tag htag
      exact Finset.mem_image.2 ⟨tag, by simpa using hbusy, htag.symm⟩
    · simp at hbusy
  calc dev.argsSlots.length = (dev.argsSlots.map (·.owner)).toFinset.card := by
        rw [List.toFinset_card_of_nodup h.own, List.length_map]
    _ ≤ (dev.outstanding.image some).card := Finset.card_le_card hsub
    _ ≤ dev.outstanding.card := Finset.card_image_le

/-- The calls to launch a kernel and to wait for it. -/
def Call.launches : Call → Bool
  | .launchAsync .. | .waitLaunch _ | .dropLaunch _ => true
  | _ => false

def Call.launch? : Call → Option LaunchOptions
  | .launchAsync _ opts => some opts
  | _ => none

/-- The lengths of the arguments that the launches among `calls` stage. -/
def argLengths (calls : List Call) : List ℕ :=
  ((calls.filterMap Call.launch?).map (·.args.length)).filter (0 < ·)

namespace Session

/-- A launch that needs a new slot does so because none is idle. It finds each held by a command
of its own, and a queue takes the command that fills the new one; or more commands than there
are slots were outstanding once before. -/
def Warranted (s : Session) (call : Call) : Prop :=
  ∀ opts ∈ call.launch?, s.sys.dev.Lacks opts →
    (∀ slot ∈ s.sys.dev.argsSlots, slot.busy s.sys.dev.outstanding = true) ∧
      (((s.sys.dev.argsSlots.map (·.owner)).Nodup ∧ s.sys.TakesArgs opts.args.length) ∨
        s.sys.dev.argsSlots.length < s.sys.peak)

/-- A launch finds nothing outstanding, and room for a new slot if it needs one. -/
def Orderly (s : Session) (call : Call) : Prop :=
  ∀ opts ∈ call.launch?, s.stopped = none ∧ s.sys.dev.outstanding = ∅ ∧
    (s.sys.dev.Lacks opts → s.sys.dev.Room opts.args.length)

instance (s : Session) (call : Call) : Decidable (s.Warranted call) :=
  inferInstanceAs (Decidable (∀ opts ∈ call.launch?, _))

instance (s : Session) (call : Call) : Decidable (s.Orderly call) :=
  inferInstanceAs (Decidable (∀ opts ∈ call.launch?, _))

/-- `P` holds of each call of a run. -/
def Throughout (P : Session → Call → Prop) : Session → List Call → Prop
  | _, [] => True
  | s, call :: calls => P s call ∧ Throughout P (s.step call) calls

instance decidableThroughout {P : Session → Call → Prop} [∀ s call, Decidable (P s call)] :
    ∀ (s : Session) (calls : List Call), Decidable (Throughout P s calls)
  | _, [] => .isTrue trivial
  | s, call :: calls =>
    have : Decidable (Throughout P (s.step call) calls) := decidableThroughout (s.step call) calls
    inferInstanceAs (Decidable (_ ∧ _))

theorem Throughout.run {P : Session → Call → Prop} {I : Session → Prop} {s : Session}
    {calls : List Call} (h : Throughout P s calls) (hs : I s)
    (hlaunches : ∀ call ∈ calls, call.launches = true)
    (hstep : ∀ s call, call.launches = true → P s call → I s → I (s.step call)) :
    I (s.run calls) := by
  induction calls generalizing s with
  | nil => exact hs
  | cons call calls ih =>
    have hcall := hstep s call (hlaunches call List.mem_cons_self) h.1 hs
    exact ih h.2 hcall fun call' hmem => hlaunches call' (List.mem_cons_of_mem _ hmem)

variable {s : Session} {call : Call} {Q : Sys → Prop}

/-- `Q` holds between two calls. -/
abbrev Keeps (s : Session) (Q : Sys → Prop) : Prop := s.Holds (fun _ => True) fun _ => Q

/-- Waiting for launches and dropping them keeps what tags do not matter to. -/
theorem wait_step (hQ : Numb (fun _ => True) (fun _ => True) Q) (hp : Unpending Q)
    (hs : s.Keeps Q) (hlaunches : call.launches = true)
    (hne : ∀ kernel opts, call ≠ .launchAsync kernel opts) : (s.step call).Keeps Q := by
  unfold step
  split
  · exact hs
  rename_i hstop
  have hstop : s.stopped = none := by simpa using hstop
  cases call with
  | launchAsync kernel opts => exact absurd rfl (hne kernel opts)
  | waitLaunch j =>
    dsimp only
    split
    · rename_i handle s' htake
      obtain ⟨-, -, rfl⟩ := take_eq_some htake
      exact perform_holds (hQ.waitLaunch hp _ s.sys ⟨hs.sys, hs.pending hstop⟩) hstop
        fun _ _ => ⟨rfl, rfl, rfl⟩
    · exact hs
  | dropLaunch j =>
    dsimp only
    split
    · rename_i handle s' htake
      obtain ⟨-, -, rfl⟩ := take_eq_some htake
      exact ⟨hs.sys, hs.pending, hs.reason⟩
    · exact hs
  | _ => simp [Call.launches] at hlaunches

/-- What a launch keeps. -/
theorem launch_step {kernel : LoadedKernel} {opts : LaunchOptions} (hstop : s.stopped = none)
    (hQ : (Calls (fun _ => True) Q).At (EtSoc.launchAsync kernel opts s.sys)) :
    (s.step (.launchAsync kernel opts)).Keeps Q := by
  have hgoing : ¬s.stopped.isSome = true := by simp [hstop]
  unfold step
  rw [if_neg hgoing]
  exact perform_holds hQ hstop fun _ _ => ⟨rfl, rfl, rfl⟩

/-! ### Slots and commands -/

/-- The slots are no more than the commands that were once outstanding together. -/
def Matched (s : Session) : Prop :=
  s.Keeps fun sys => sys.dev.argsSlots.length ≤ sys.peak ∧ sys.Limited

theorem matched_launch {kernel : LoadedKernel} {opts : LaunchOptions} (hs : s.Matched)
    (hstop : s.stopped = none) (hwarranted : s.Warranted (.launchAsync kernel opts)) :
    (s.step (.launchAsync kernel opts)).Matched := by
  have hp := hs.pending hstop
  have hslots : (s.step (.launchAsync kernel opts)).Keeps _ :=
    launch_step hstop (launchAsync_slots s.sys hp s.sys rfl)
  have hlimited : (s.step (.launchAsync kernel opts)).Keeps _ :=
    launch_step hstop (launchAsync_limited s.sys ⟨hs.sys.2, hp⟩)
  refine ⟨⟨?_, hlimited.sys⟩, hslots.pending, hslots.reason⟩
  obtain ⟨⟨hlen, hpeak⟩, hsurpasses⟩ := hslots.sys
  have hle : s.sys.dev.argsSlots.length ≤ s.sys.peak := hs.sys.1
  by_cases hlacks : s.sys.dev.Lacks opts
  · rw [if_pos hlacks] at hlen
    obtain ⟨hbusy, ⟨hown, htakes⟩ | hless⟩ := hwarranted opts rfl hlacks
    · have hcard := Device.Crowded.length_le ⟨hbusy, hown⟩
      have hsettles : (s.step (.launchAsync kernel opts)).Keeps _ :=
        launch_step hstop (launchAsync_settles hp hs.sys.2 hlacks htakes s.sys rfl)
      rcases hsettles.sys with hsame | htaken
      · exact (hsame.trans hle).trans hpeak
      · rcases hsurpasses with ⟨hsame, -⟩ | hmore
        · exact absurd hsame (Nat.ne_of_gt htaken)
        · omega
    · omega
  · rw [if_neg hlacks] at hlen
    omega

theorem matched_step (hs : s.Matched) (hlaunches : call.launches = true)
    (hwarranted : s.Warranted call) : (s.step call).Matched := by
  by_cases hstop : s.stopped = none
  · by_cases hlaunch : ∃ kernel opts, call = .launchAsync kernel opts
    · obtain ⟨kernel, opts, rfl⟩ := hlaunch
      exact matched_launch hs hstop hwarranted
    · have hne : ∀ kernel opts, call ≠ .launchAsync kernel opts :=
        fun kernel opts h => hlaunch ⟨kernel, opts, h⟩
      have htallied := wait_step (numb_tallied s.sys.peak s.sys.peak) (fun _ _ h => h)
        ⟨⟨hs.sys.1, Nat.le_refl _⟩, hs.pending, hs.reason⟩ hlaunches hne
      have hlimited := wait_step numb_limited (fun _ _ h => h)
        ⟨hs.sys.2, hs.pending, hs.reason⟩ hlaunches hne
      exact ⟨⟨htallied.sys.1.trans htallied.sys.2, hlimited.sys⟩, htallied.pending,
        htallied.reason⟩
  · rwa [step_of_stopped hstop]

/-! ### Slots and lengths -/

/-- The sizes of the slots after a run of launches, each of which finds nothing outstanding. -/
theorem sized_run {sizes : List ℕ} {calls : List Call} (h : Throughout Orderly s calls)
    (hs : s.Keeps (Sized sizes)) (hlaunches : ∀ call ∈ calls, call.launches = true) :
    (s.run calls).Keeps (Sized ((argLengths calls).foldl grown sizes)) := by
  induction calls generalizing s sizes with
  | nil => exact hs
  | cons call calls ih =>
    obtain ⟨horderly, h⟩ := h
    have hcall := hlaunches call List.mem_cons_self
    have hrest : ∀ call' ∈ calls, call'.launches = true :=
      fun call' hmem => hlaunches call' (List.mem_cons_of_mem _ hmem)
    by_cases hlaunch : ∃ kernel opts, call = .launchAsync kernel opts
    · obtain ⟨kernel, opts, rfl⟩ := hlaunch
      obtain ⟨hstop, hidle, hroom⟩ := horderly opts rfl
      have hstep : (s.step (.launchAsync kernel opts)).Keeps _ :=
        launch_step hstop
          (launchAsync_sized (hs.pending hstop) hs.sys hidle hroom s.sys rfl)
      have hnext := ih h hstep hrest
      by_cases hargs : opts.args = []
      · simpa [argLengths, Call.launch?, hargs, run] using hnext
      · simpa [argLengths, Call.launch?, hargs, List.length_pos_iff.2 hargs, run] using hnext
    · have hne : ∀ kernel opts, call ≠ .launchAsync kernel opts :=
        fun kernel opts h => hlaunch ⟨kernel, opts, h⟩
      have hnext := ih h (wait_step (numb_sized sizes) (fun _ _ h => h) hs hcall hne) hrest
      cases call with
      | launchAsync kernel opts => exact absurd rfl (hne kernel opts)
      | _ => exact hnext

theorem length_le_foldl_grown (lens sizes : List ℕ) :
    sizes.length ≤ (lens.foldl grown sizes).length := by
  induction lens generalizing sizes with
  | nil => exact Nat.le_refl _
  | cons len lens ih =>
    refine Nat.le_trans ?_ (ih (grown sizes len))
    unfold grown
    split
    · exact Nat.le_refl _
    · simp

/-- One slot is enough just for lengths that it has room for. -/
theorem length_foldl_grown (first : ℕ) (lens : List ℕ) :
    (lens.foldl grown [first]).length ≤ 1 ↔ ∀ len ∈ lens, len ≤ first := by
  induction lens with
  | nil => simp
  | cons len lens ih =>
    rw [List.foldl_cons, List.forall_mem_cons]
    by_cases hle : len ≤ first
    · rw [grown, if_pos ⟨first, List.mem_singleton_self _, hle⟩, ih]
      exact ⟨fun h => ⟨hle, h⟩, fun h => h.2⟩
    · have hmore := length_le_foldl_grown lens [first, len]
      rw [grown, if_neg (by simpa using hle)]
      exact ⟨fun h => absurd (hmore.trans h) (by simp), fun h => absurd h.1 hle⟩

/-- In a run of launches, if each that needs a new slot does so because no slot is idle, there
are at most as many slots as commands were outstanding at once. If each finds nothing
outstanding, there is at most one slot just if no arguments are longer than the first. -/
theorem args_slots_bounded (setup : Setup) (calls : List Call)
    (hlaunches : ∀ call ∈ calls, call.launches = true) :
    let s := (init setup).run calls
    ((init setup).Throughout Warranted calls → s.sys.dev.argsSlots.length ≤ s.sys.peak) ∧
      ((init setup).Throughout Orderly calls → (s.sys.dev.argsSlots.length ≤ 1 ↔
        ∀ first ∈ (argLengths calls).head?, ∀ len ∈ argLengths calls, len ≤ first)) := by
  intro s
  have hmatched : (init setup).Matched :=
    ⟨⟨Nat.le_refl _, by simp [Sys.Limited, init, Sys.init, Device.init]⟩, fun _ => rfl,
      by simp [init]⟩
  refine ⟨fun h => (h.run hmatched hlaunches fun _ _ hl hp hs => matched_step hs hl hp).sys.1,
    fun h => ?_⟩
  have hsized := (@sized_run _ [] _ h ⟨rfl, fun _ => rfl, by simp [init]⟩ hlaunches).sys
  rw [show s.sys.dev.argsSlots.length = ((argLengths calls).foldl grown []).length by
    rw [← hsized, List.length_map]]
  cases argLengths calls with
  | nil => simp
  | cons first lens =>
    rw [List.foldl_cons, show grown [] first = [first] from rfl, length_foldl_grown]
    simp

/-- The device completes the argument DMA `c` and the launch after it as soon as the host waits
for them. -/
def launched (c : ℕ) : List Choice :=
  [served c c.toUInt8 0, served (c + 1) (c + 1).toUInt8 0]

def answering (script : List Choice) : Setup where
  machine := ⟨true, true, true, true, true, fun _ m => m, 4096⟩
  mem := fun _ => 0
  address := 0
  dram := ⟨0, 2 ^ 20, 16, 2, 64⟩
  defaultTimeout := 5
  script := script

/-- The launch of a kernel with `len` bytes of arguments. -/
def launchWith (len : ℕ) : Call :=
  .launchAsync ⟨0⟩ { LaunchOptions.new 1 with args := List.replicate len 0 }

/-- Two launches that overlap, and two more in their slots. The transport then maps no buffer for
a fifth, which finds both slots in use. -/
def overlapped : Setup := answering (granted 9 ++ launched 0 ++ launched 2 ++ granted 6 ++
  [⟨[], .fail (.io "map")⟩] ++ launched 4 ++ launched 6)

def overlapped.calls : List Call :=
  [launchWith 2, launchWith 3, .waitLaunch 0, .waitLaunch 1, launchWith 1, launchWith 3,
    launchWith 1, .waitLaunch 2, .waitLaunch 3]

/-- Launches that are each waited for before the next, of which the first has the longest
arguments. -/
def receding : Setup := answering (granted 5 ++ launched 0 ++ granted 3 ++ launched 2 ++ granted 3 ++
  launched 4)

def receding.calls : List Call :=
  [launchWith 3, .waitLaunch 0, launchWith 1, .waitLaunch 1, launchWith 2, .waitLaunch 2]

theorem args_slots_bounded_overlapped :
    ((init overlapped).run overlapped.calls).sys.dev.argsSlots.length ≤
        ((init overlapped).run overlapped.calls).sys.peak ∧
      ((init receding).run receding.calls).sys.dev.argsSlots.length ≤ 1 :=
  ⟨(args_slots_bounded overlapped overlapped.calls (by decide)).1 (by decide +kernel),
    ((args_slots_bounded receding receding.calls (by decide)).2 (by decide +kernel)).2 (by decide)⟩

/-- Launches with one, two and three bytes of arguments, each waited for before the next. -/
def growing : List Call :=
  [launchWith 1, .waitLaunch 0, launchWith 2, .waitLaunch 1, launchWith 3, .waitLaunch 2]

def obliging : Setup :=
  answering (granted 5 ++ launched 0 ++ granted 4 ++ launched 2 ++ granted 4 ++ launched 4)

theorem args_slots_growing : (∀ call ∈ growing, call.launches = true) ∧
    ((init obliging).run growing).stopped = none ∧
    ((init obliging).run growing).sys.dev.outstanding = ∅ ∧
    ((init obliging).run growing).sys.peak = 2 ∧
    ((init obliging).run growing).sys.dev.argsSlots.length = 3 := by
  refine ⟨by decide, ?_, ?_, ?_, ?_⟩ <;> decide +kernel

end Session

end EtSoc

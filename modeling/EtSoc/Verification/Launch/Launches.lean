import EtSoc.Verification.Launch.Slots

/-! # Launching kernels -/

namespace EtSoc

open Function Program

/-! ## The command -/

/-- What the command of a launch is. -/
structure IsLaunch (kernel : LoadedKernel) (opts : LaunchOptions) (pointerToArgs : ℕ)
    (a : Accepted) : Prop where
  sqIndex : a.sqIndex = opts.sqIndex
  descFlags : a.descFlags = 0
  flags : a.cmd.header.flags = opts.flags
  body : a.cmd.body = .kernelLaunch ⟨kernel.codeStartAddress, pointerToArgs, opts.exceptionBuffer,
    opts.shireMask, opts.payload⟩

namespace IsLaunch
variable {kernel : LoadedKernel} {opts : LaunchOptions} {pointerToArgs : ℕ} {a : Accepted}

theorem nodes_eq (h : IsLaunch kernel opts pointerToArgs a) : a.cmd.nodes = [] := by
  rw [Command.nodes, h.body]

theorem isWrite_eq (h : IsLaunch kernel opts pointerToArgs a) : a.cmd.isWrite = false := by
  rw [Command.isWrite, h.body]

theorem launch?_eq (h : IsLaunch kernel opts pointerToArgs a) :
    a.cmd.launch? = some ⟨kernel.codeStartAddress, pointerToArgs, opts.exceptionBuffer,
      opts.shireMask, opts.payload⟩ := by
  rw [Command.launch?, h.body]

theorem queue_eq (h : IsLaunch kernel opts pointerToArgs a) : a.queue = (opts.sqIndex, false) := by
  rw [Accepted.queue, h.descFlags, h.sqIndex]
  rfl

theorem barrier_eq (h : IsLaunch kernel opts pointerToArgs a) : a.cmd.barrier = opts.barrier := by
  rw [Command.barrier, h.flags, LaunchOptions.flags]
  cases opts.barrier <;> cases opts.flushL3 <;> cases opts.trace.isSome <;>
    cases opts.stack.isSome <;> decide

end IsLaunch

theorem buildKernelLaunch_eq_some {kernel : LoadedKernel} {opts : LaunchOptions}
    {pointerToArgs : ℕ} {tag : Tag} {cmd : Command}
    (h : buildKernelLaunch tag opts.flags kernel.codeStartAddress pointerToArgs
      opts.exceptionBuffer opts.shireMask opts.payload = some cmd) (host : BufId → Memory) :
    cmd.tagId = tag ∧ IsLaunch kernel opts pointerToArgs ⟨opts.sqIndex, 0, cmd, host⟩ := by
  simp only [buildKernelLaunch, command, Option.map_eq_some_iff] at h
  obtain ⟨size, -, rfl⟩ := h
  exact ⟨rfl, rfl, rfl, rfl, rfl⟩

/-! ## Abandoning on failure -/

theorem orAbandon_spec {α : Type} {m : M α} {Pre : Sys → Prop} {R : α → Sys → Prop}
    {F F' : Error → Sys → Prop} (h : Triple Pre m (Ends R F))
    (habandon : ∀ e, Triple (F e) abandonAll (Ends (fun _ => F' e) fun _ _ => False)) :
    Triple Pre (orAbandon m) (Ends R F') := by
  refine .attempt_bind h (fun a => .pure fun _ h => h) fun e => ?_
  exact .bind ((habandon e).conseq (fun _ h => h) (fun _ _ h => h) (fun _ _ h => h.elim)
    fun _ h => h) fun _ => .throw fun _ h => h

/-! ## Arguments -/

variable {E : Option ArgsSlot → Env} {B : Option ArgsSlot → World → Prop} {P : World → Prop}
  {N : ℕ} {acc own : List Accepted} {fr fr' : Frame} {rest : List Tag} {kernel : LoadedKernel}
  {opts : LaunchOptions} {o : Option ArgsSlot} {host : Option DmaHostBuffer}

/-- The arguments of a launch have been staged in a slot, if there are any. -/
inductive ArgsAt (E : Option ArgsSlot → Env) (N : ℕ) (fr : Frame) (opts : LaunchOptions) :
    Option ArgsSlot → Option DmaHostBuffer → Option ℕ → ℕ → Frame → List Accepted → Prop where
  | bare (h : opts.args = []) : ArgsAt E N fr opts none none none 0 fr []
  | staged {i slot fr' host own} (hc : Chosen fr opts.args.length fr' i slot)
      (hs : StagesArgs (E (some slot)) N slot opts.sqIndex opts.args host.id opts.args.length own) :
      ArgsAt E N fr opts (some slot) (some host) (some i) slot.region.addr
        (fr'.stage i (some host) own) own

/-- What a launch that failed may have done with the slots. -/
inductive ArgsFailed (E : Option ArgsSlot → Env) (N : ℕ) (fr : Frame) (opts : LaunchOptions) :
    Option ArgsSlot → Option DmaHostBuffer → Frame → List Accepted → Prop where
  | none : ArgsFailed E N fr opts none none fr []
  | unmapped {i slot fr'} (hc : Chosen fr opts.args.length fr' i slot) (h : slot.host = none) :
      ArgsFailed E N fr opts (some slot) none (fr'.stage i none []) []
  | staged {i slot fr' host own len} (hc : Chosen fr opts.args.length fr' i slot)
      (hlen : len ≤ opts.args.length)
      (hs : StagesArgs (E (some slot)) N slot opts.sqIndex opts.args host.id len own) :
      ArgsFailed E N fr opts (some slot) (some host) (fr'.stage i (some host) own) own

theorem ArgsAt.failed {slot : Option ℕ} {pointerToArgs : ℕ}
    (h : ArgsAt E N fr opts o host slot pointerToArgs fr' own) :
    ArgsFailed E N fr opts o host fr' own := by
  cases h with
  | bare h => exact .none
  | staged hc hs => exact .staged hc (Nat.le_refl _) hs

theorem Chosen.get {len i : ℕ} {slot : ArgsSlot} (h : Chosen fr len fr' i slot) :
    fr'.argsSlots[i]? = some slot := by
  cases h with
  | reused h => exact h
  | fresh h => simp

/-- The fields that the allocation of a slot leaves alone. -/
theorem Chosen.frame {len i : ℕ} {slot : ArgsSlot} (h : Chosen fr len fr' i slot) :
    fr'.pending = fr.pending ∧ fr'.cut = fr.cut := by
  cases h <;> exact ⟨rfl, rfl⟩

theorem ArgsFailed.frame (h : ArgsFailed E N fr opts o host fr' own) : fr'.cut = fr.cut := by
  cases h with
  | none => rfl
  | unmapped hc | staged hc => exact hc.frame.2

/-- What is needed to launch a kernel: properties of the world, one for each slot that may
be chosen, which outlast the commands of the launch. -/
structure LaunchPlan (E : Option ArgsSlot → Env) (B : Option ArgsSlot → World → Prop)
    (P : World → Prop) (N : ℕ) (acc : List Accepted) (fr : Frame) (rest : List Tag)
    (kernel : LoadedKernel) (opts : LaunchOptions) : Prop where
  stable : ∀ o, Stable (E o) (B o)
  bare : ∀ w : World, w.Sound → P w → w.accepted = acc → B none w
  ready : ∀ fr' i slot, Chosen fr opts.args.length fr' i slot → ∀ w : World, w.Sound → P w →
    w.accepted = acc → w.Free slot → SlotReady (E (some slot)) (B (some slot)) slot w
  mapped : ∀ slot w, B (some slot) w → N ≤ w.nextBuf
  purpose : ∀ fr' i slot host, Chosen fr opts.args.length fr' i slot → slot.host = some host →
    host.id.purpose = .arguments
  args : ∀ fr' i slot b a, Chosen fr opts.args.length fr' i slot → HostOf N slot b →
    Carries .write opts.sqIndex (· = b) slot.region.addr opts.args.length a →
    ((E (some slot)).strict .arguments →
      Payload (fun x => opts.args.getD (x - slot.region.addr) 0) a) →
    a.cmd.tagId ∉ rest → (E (some slot)).accepts a
  launch : ∀ a, IsLaunch kernel opts 0 a → a.cmd.tagId ∉ rest → (E none).accepts a
  launchArgs : ∀ fr' i slot a, Chosen fr opts.args.length fr' i slot →
    IsLaunch kernel opts slot.region.addr a → a.cmd.tagId ∉ rest → (E (some slot)).accepts a

/-- A launch failed, after the commands `own` for its arguments. -/
def LaunchFailed (E : Option ArgsSlot → Env) (B : Option ArgsSlot → World → Prop) (N : ℕ)
    (acc : List Accepted) (fr : Frame) (rest : List Tag) (opts : LaunchOptions) (s : Sys) : Prop :=
  ∃ o host fr' own forgotten, ArgsFailed E N fr opts o host fr' own ∧
    Tidy (fun w => (B o w ∧ ∀ h, host = some h → h.id.serial < w.nextBuf) ∧ w.accepted = acc ++ own)
      { fr' with pending := [], cut := forgotten ++ fr.cut } rest s

/-- The same before the pending commands are abandoned. -/
def LaunchFailing (E : Option ArgsSlot → Env) (B : Option ArgsSlot → World → Prop) (N : ℕ)
    (acc : List Accepted) (fr : Frame) (rest : List Tag) (opts : LaunchOptions) (s : Sys) : Prop :=
  ∃ o host fr' own pending forgotten, ArgsFailed E N fr opts o host fr' own ∧
    Tidy (fun w => (B o w ∧ ∀ h, host = some h → h.id.serial < w.nextBuf) ∧ w.accepted = acc ++ own)
      { fr' with pending := pending, cut := forgotten ++ fr.cut } rest s

theorem abandon_failing :
    Triple (LaunchFailing E B N acc fr rest opts) abandonAll
      (Ends (fun _ => LaunchFailed E B N acc fr rest opts) fun _ _ => False) :=
  .exists_pre fun o => .exists_pre fun host => .exists_pre fun fr' => .exists_pre fun own =>
    .exists_pre fun _ => .exists_pre fun forgotten => .intro (fun _ h => h.1) fun hfailed =>
      (abandonAll_spec.conseq (fun _ h => h.2)
        (fun _ _ h => ⟨o, host, fr', own, forgotten, hfailed, h⟩) (fun _ _ h => h) fun _ h => h)

/-- Nothing was forgotten. -/
theorem Frame.cut_nil (fr' : Frame) (h : fr'.cut = fr.cut) :
    { fr' with pending := fr'.pending, cut := [] ++ fr.cut } = fr' := by
  cases fr'
  simp_all

theorem stageArgs_spec (hplan : LaunchPlan E B P N acc fr rest kernel opts) (hp : fr.pending = []) :
    Triple (Tidy (fun w => P w ∧ w.accepted = acc) fr rest) (stageArgs opts)
      (Ends (fun r s => ∃ o host fr' own, ArgsAt E N fr opts o host r.1 r.2 fr' own ∧
          Tidy (fun w => ((B o w ∧ ∀ h, host = some h → h.id.serial < w.nextBuf) ∧
              (opts.barrier = false → w.CompletedFrom acc.length (acc ++ own).length)) ∧
              w.accepted = acc ++ own)
            { fr' with pending := if opts.barrier then own.map (·.cmd.tagId) else [] } rest s)
        fun _ => LaunchFailed E B N acc fr rest opts) := by
  have hself : ∀ p, fr.pending = p → { fr with pending := p } = fr := fun p h => by
    cases fr
    simp_all
  refine .ite (fun hempty => .pure fun s hs => ?_) fun _ => ?_
  · refine ⟨none, none, fr, [], .bare (List.isEmpty_iff.1 hempty), ?_⟩
    rw [List.map_nil, ite_self, hself [] hp]
    refine ⟨hs.tags, ⟨⟨⟨hplan.bare _ hs.tags.sound hs.world.1 hs.world.2, by simp⟩,
      fun _ c hlo hhi => ?_⟩, by simpa using hs.world.2⟩, hs.frame⟩
    simp only [List.append_nil] at hhi
    omega
  refine .bind (argsSlot_spec.conseq (fun _ h => h) (fun _ _ h => h) (fun e s hs => ?_) fun _ h => h)
    fun i => .exists_pre fun fr' => .exists_pre fun slot => .and_pre fun hc => ?_
  · refine ⟨none, none, fr, [], [], .none, ?_⟩
    rw [List.nil_append, hself [] hp]
    exact ⟨hs.tags, ⟨⟨hplan.bare _ hs.tags.sound hs.world.1 hs.world.2, by simp⟩,
      by simpa using hs.world.2⟩, hs.frame⟩
  obtain ⟨hpend, hcut⟩ := hc.frame
  have hB := hplan.stable (some slot)
  refine .bind (R := fun addr s => addr = slot.region.addr ∧ ∃ host own,
      StagesArgs (E (some slot)) N slot opts.sqIndex opts.args host.id opts.args.length own ∧
      Tidy (fun w => ((B (some slot) w ∧ host.id.serial < w.nextBuf) ∧
          (opts.barrier = false → w.CompletedFrom acc.length (acc ++ own).length)) ∧
          w.accepted = acc ++ own)
        { fr'.stage i (some host) own with
          pending := if opts.barrier then own.map (·.cmd.tagId) else [] } rest s) ?_
    fun addr => .pure fun s ⟨haddr, host, own, hs, htidy⟩ => ?_
  rotate_left
  · subst haddr
    exact ⟨some slot, some host, _, own, .staged hc hs, htidy.mono fun w hw =>
      ⟨⟨⟨hw.1.1.1, fun h hh => Option.some.inj hh ▸ hw.1.1.2⟩, hw.1.2⟩, hw.2⟩⟩
  refine orAbandon_spec ?_
    fun _ => abandon_failing
  refine .bind ((pushArgsDma_spec acc hB (hplan.mapped slot)
    (hpend.trans hp) hc.get (fun host hh => hplan.purpose _ _ _ _ hc hh)
    fun b a hof ha hpay hfresh => hplan.args _ _ _ b a hc hof ha hpay hfresh).conseq
    (fun s hs => ?_) (fun _ _ h => h) (fun e s h => ?_) fun _ h => h) fun addr =>
      .and_pre fun haddr => .exists_pre fun host => ?_
  · refine ⟨?_, ⟨hplan.ready _ _ _ hc _ hs.2.tags.sound hs.2.world.1 hs.2.world.2 hs.1,
      hs.2.world.2⟩, hs.2.frame⟩
    rw [hpend, hcut]
    exact hs.2.tags
  · obtain ⟨hnone, hs⟩ | ⟨host, own, len, hlen, hstages, hs⟩ := h
    · refine ⟨some slot, none, _, [], [], [], .unmapped hc hnone, ?_⟩
      have hframe := Frame.cut_nil (fr'.stage i none []) hcut
      exact hframe.symm ▸ Tidy.mono hs fun w hw => ⟨⟨hw.1, by simp⟩, by simpa using hw.2⟩
    · refine ⟨some slot, some host, _, own, own.map (·.cmd.tagId), [], .staged hc hlen hstages, ?_⟩
      have hframe := Frame.cut_nil (fr'.stage i (some host) own) hcut
      exact hframe.symm ▸ Tidy.mono hs fun w hw =>
        ⟨⟨hw.1.1, fun h hh => Option.some.inj hh ▸ hw.1.2⟩, hw.2⟩
  refine .exists_pre fun own => .and_pre fun hstages => ?_
  subst haddr
  refine .bind (R := fun _ => Tidy (fun w => ((B (some slot) w ∧ host.id.serial < w.nextBuf) ∧
      (opts.barrier = false → w.CompletedFrom acc.length (acc ++ own).length)) ∧
      w.accepted = acc ++ own)
    { fr'.stage i (some host) own with
      pending := if opts.barrier then own.map (·.cmd.tagId) else [] } rest) ?_
    fun _ => .pure fun s hs => ⟨rfl, host, own, hstages, hs⟩
  refine .ite (fun hbarrier => .pure fun s hs => ?_) fun hbarrier => ?_
  · rw [if_pos hbarrier]
    exact Tidy.mono hs fun w hw => ⟨⟨hw.1, by simp [hbarrier]⟩, hw.2⟩
  · rw [if_neg hbarrier]
    have hserial : Patient fun w : World => host.id.serial < w.nextBuf :=
      ⟨fun w d _ h => by simpa using h, fun _ _ _ _ _ h => h⟩
    refine getPending_bind ((awaitDma_spec acc.length
      (hB.patient.and hserial) (by simp [Pends, Frame.stage])
      (by simpa [Frame.stage] using hstages.2.1.oneChunk.chunked acc [])).conseq (fun _ h => h)
      (fun _ s hs => ?_) (fun e s hs => ?_) fun _ h => h)
    · have hdrop : (fr'.stage i (some host) own).pending.drop
          (fr'.stage i (some host) own).pending.length = [] := List.drop_length
      have hlen : (fr'.stage i (some host) own).pending.length = own.length := by simp [Frame.stage]
      simp only [hdrop] at hs
      refine hs.2.mono fun w hw => ⟨⟨hw.1.1, fun _ => ?_⟩, hw.1.2⟩
      simpa [hlen] using hw.2
    · obtain ⟨forgotten, -, hs⟩ := hs
      refine ⟨some slot, some host, _, own, (fr'.stage i (some host) own).pending.drop
        (fr'.stage i (some host) own).pending.length, forgotten,
        .staged hc (Nat.le_refl _) hstages, ?_⟩
      rw [← hcut]
      exact Tidy.mono hs fun w hw => ⟨⟨hw.1.1.1, fun h hh => Option.some.inj hh ▸ hw.1.1.2⟩, hw.1.2⟩

/-! ## Launching -/

theorem ArgsAt.accepts {slot : Option ℕ} {pointerToArgs : ℕ} {a : Accepted}
    (h : ArgsAt E N fr opts o host slot pointerToArgs fr' own)
    (hplan : LaunchPlan E B P N acc fr rest kernel opts) (ha : IsLaunch kernel opts pointerToArgs a)
    (hfresh : a.cmd.tagId ∉ rest) : (E o).accepts a := by
  cases h with
  | bare => exact hplan.launch a ha hfresh
  | staged hc => exact hplan.launchArgs _ _ _ a hc ha hfresh

/-- The frame once slot `slot`, if any, belongs to the launch under `tag`. -/
def Frame.launched (fr : Frame) (slot : Option ℕ) (tag : Tag) : Frame :=
  match slot with
  | some i => fr.setSlot i fun s => { s with owner := some tag }
  | none => fr

theorem assignSlot_spec {Q : World → Prop} {held : List Tag} {slot : Option ℕ} {tag : Tag}
    {F : Error → Sys → Prop} :
    Triple (Ready Q fr held []) (assignSlot slot tag)
      (Ends (fun _ => Ready Q (fr.launched slot tag) held []) F) := by
  cases slot with
  | some i => exact setSlot_spec
  | none => exact .pure fun _ h => h

/-- The world right after the launch `a` was accepted. -/
def JustLaunched (B : World → Prop) (host : Option DmaHostBuffer) (barrier : Bool)
    (acc own : List Accepted) (a : Accepted) (w : World) : Prop :=
  B w ∧ ∃ w₀ : World, w₀.Sound ∧ ((B w₀ ∧ ∀ h, host = some h → h.id.serial < w₀.nextBuf) ∧
    (barrier = false → w₀.CompletedFrom acc.length (acc ++ own).length)) ∧
    w₀.accepted = acc ++ own ∧ a.hostThen = w₀.host ∧
    w = w₀.accept a.sqIndex a.descFlags a.cmd

/-- The tags of a launch pass to its handle. -/
theorem handOver_perm (tag : Tag) (pending cut : List Tag) :
    (tag :: (pending ++ (cut ++ rest))).Perm (cut ++ (pending ++ tag :: rest)) := by
  refine .trans ?_ (List.perm_middle.symm.append_left cut)
  refine (List.Perm.cons tag (List.perm_append_comm_assoc ..)).trans ?_
  exact List.perm_middle.symm

theorem launchAsync_spec (hplan : LaunchPlan E B P N acc fr rest kernel opts)
    (hp : fr.pending = []) :
    Triple (Tidy (fun w => P w ∧ w.accepted = acc) fr rest) (launchAsync kernel opts)
      (Ends (fun launch s => ∃ o host slot pointerToArgs fr' own a,
          ArgsAt E N fr opts o host slot pointerToArgs fr' own ∧
          IsLaunch kernel opts pointerToArgs a ∧ a.cmd.tagId = launch.tag ∧
          launch.argsDma = (if opts.barrier then own.map (·.cmd.tagId) else []) ∧
          Tidy (JustLaunched (B o) host opts.barrier acc own a)
            { fr'.launched slot launch.tag with pending := [] }
            (launch.argsDma ++ launch.tag :: rest) s)
        fun _ => LaunchFailed E B N acc fr rest opts) := by
  refine .bind (R := fun _ => Tidy (fun w => P w ∧ w.accepted = acc) fr rest)
    (setPending_spec.conseq (fun _ h => h) (fun _ s hs => ?_) (fun _ _ h => h) fun _ h => h)
    fun _ => ?_
  · rwa [show { fr with pending := [] } = fr by cases fr; simp_all] at hs
  refine .bind (stageArgs_spec hplan hp) fun r => .exists_pre fun o => .exists_pre fun host =>
    .exists_pre fun fr' => .exists_pre fun own => .and_pre fun hargs => ?_
  obtain ⟨slot, pointerToArgs⟩ := r
  have hB := hplan.stable o
  have hcut : fr'.cut = fr.cut := hargs.failed.frame
  let argsDma := if opts.barrier then own.map (·.cmd.tagId) else []
  let W : World → Prop := fun w => ((B o w ∧ ∀ h, host = some h → h.id.serial < w.nextBuf) ∧
    (opts.barrier = false → w.CompletedFrom acc.length (acc ++ own).length)) ∧
    w.accepted = acc ++ own
  have hserial : Patient fun w : World => ∀ h, host = some h → h.id.serial < w.nextBuf :=
    ⟨fun w d _ h => by simpa using h, fun _ _ _ _ _ h => h⟩
  have hdone : Patient fun w : World =>
      opts.barrier = false → w.CompletedFrom acc.length (acc ++ own).length :=
    ⟨fun w d hs h hb => (patient_completedFrom _ _).step w d hs (h hb),
      fun w c rsp hs hr h hb => (patient_completedFrom _ _).pop w c rsp hs hr (h hb)⟩
  have hW : Patient W := ((hB.patient.and hserial).and hdone).and (.accepted _)
  have hfail : ∀ s, Tidy W { fr' with pending := argsDma } rest s →
      LaunchFailing E B N acc fr rest opts s := fun s hs =>
    ⟨o, host, fr', own, argsDma, [], hargs.failed, by
      rw [List.nil_append, ← hcut]
      exact Tidy.mono hs fun w hw => ⟨hw.1.1, hw.2⟩⟩
  refine .bind (orAbandon_spec (F := fun _ => LaunchFailing E B N acc fr rest opts)
    (nextTag_spec.conseq (fun _ h => h) (fun _ _ h => h) (fun e s hs => hfail s hs.1) fun _ h => h)
    fun _ => abandon_failing) fun tag => ?_
  refine .bind liftOption_spec fun cmd => .intro (fun _ h => h.2) fun hcmd => ?_
  obtain ⟨rfl, -⟩ := buildKernelLaunch_eq_some hcmd fun _ _ => 0
  refine .bind (orAbandon_spec (F := fun _ => LaunchFailing E B N acc fr rest opts)
    ((pushCmd_spec hW).conseq (fun _ h => h.1) (fun _ _ h => h) (fun e s hs => hfail s hs.1)
      fun _ h => h) fun _ => abandon_failing) fun _ => ?_
  refine .pre (P := fun s => ∃ a, (IsLaunch kernel opts pointerToArgs a ∧
      a.cmd.tagId = cmd.tagId) ∧ Ready (JustLaunched (B o) host opts.barrier acc own a)
        { fr' with pending := argsDma } (cmd.tagId :: (argsDma ++ (fr'.cut ++ rest))) [] s)
    (.exists_pre fun a => .and_pre fun ha => ?_) fun s hs => ?_
  · refine .bind assignSlot_spec fun _ => .read_bind fun dev => .pre (getPending_bind
      (.bind setPending_spec fun _ => .pure fun s hs => ?_)) fun _ h => h.1
    refine ⟨o, host, slot, pointerToArgs, fr', own, a, hargs, ha.1, ha.2, ?_, ?_⟩
    · cases slot <;> rfl
    · obtain ⟨hpending, hcut⟩ : ({ fr' with pending := argsDma }.launched slot cmd.tagId).pending =
          argsDma ∧ (fr'.launched slot cmd.tagId).cut = fr'.cut := by
        cases slot <;> exact ⟨rfl, rfl⟩
      rw [hpending]
      refine ⟨hs.tags.perm ?_, hs.world, hs.frame.trans (by cases slot <;> rfl)⟩
      change (cmd.tagId :: (argsDma ++ (fr'.cut ++ rest))).Perm ([] ++
        ((fr'.launched slot cmd.tagId).cut ++ (argsDma ++ cmd.tagId :: rest)))
      rw [hcut]
      exact handOver_perm ..
  · obtain ⟨w, hsound, hw, hworld⟩ := hs.world
    obtain ⟨-, hlaunch⟩ := buildKernelLaunch_eq_some hcmd w.host
    refine ⟨⟨opts.sqIndex, 0, cmd, w.host⟩, ⟨hlaunch, rfl⟩, hs.tags, ?_, hs.frame⟩
    refine ⟨?_, w, hsound, hw.1, hw.2, rfl, hworld⟩
    rw [hworld]
    refine hB w _ hsound (.accept _ _ _ (hargs.accepts hplan hlaunch fun hin => ?_) ?_ ?_) hw.1.1.1
    · exact (List.nodup_cons.1 hs.tags.nodup).1 (by simp [hin])
    · simp [World.Clear, hlaunch.nodes_eq]
    · simp [hlaunch.nodes_eq]

end EtSoc

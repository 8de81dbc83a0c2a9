import EtSoc.Verification.Session.Allocations
import EtSoc.Verification.Session.Deliveries
import EtSoc.Verification.Wire.Sending

/-! # What a session gives to the submission queues -/

namespace EtSoc

open Function Program

/-! ## Commands -/

/-- A command as the host may give it to a queue of a device. -/
structure Sendable (dram : DramInfo) (sqMax : ℕ) (cmd : Command) : Prop where
  encodes : cmd.Encodes
  list : ∀ direction nodes, cmd.body = Direction.body direction nodes →
    cmd.header.flags = CmdFlags.barrier ∧
      ListFits (max dram.dmaMaxElemSize 1) (nodeLimit dram sqMax) nodes

variable {dram : DramInfo} {machine : Machine} {sqMax : ℕ}

theorem Gathered.fits_all {b : BufId} {addr maxElem maxNodes off off' : ℕ} {nodes : List DmaNode}
    (h : Gathered b addr maxElem maxNodes off nodes off') (hmax : maxElem < 2 ^ 32) :
    ∀ node ∈ nodes, node.Fits := fun node hnode =>
  ⟨(h.fits node hnode).1, (h.fits node hnode).2.1, (h.fits node hnode).2.2.2.trans_lt hmax⟩

/-- `w` is what a command given to a queue in the course of `call` may be read as: a list of
nodes, or the command of the call itself. -/
def Call.Gives (call : Call) (w : WireCommand) : Prop :=
  match w.body with
  | .dmaReadlist _ => w.header.msgId = MsgId.dmaReadlistCmd ∧ w.header.flags = CmdFlags.barrier
  | .dmaWritelist _ => w.header.msgId = MsgId.dmaWritelistCmd ∧ w.header.flags = CmdFlags.barrier
  | .kernelLaunch launch => ∃ kernel opts, call = .launchAsync kernel opts ∧
      w.header.msgId = MsgId.kernelLaunchCmd ∧ w.header.flags = opts.flags ∧
      launch = ⟨kernel.codeStartAddress, launch.pointerToArgs, opts.exceptionBuffer, opts.shireMask,
        opts.payload⟩
  | .cmReset shireMask => call = .resetShires shireMask ∧ w.header.msgId = MsgId.cmResetCmd ∧
      w.header.flags = CmdFlags.barrier

/-- A command as `call` may give it to a queue, wherever the host buffers are mapped. -/
structure Given (dram : DramInfo) (sqMax : ℕ) (call : Call) (cmd : Command) : Prop where
  sendable : Sendable dram sqMax cmd
  gives : ∀ virt, call.Gives (cmd.wire virt)

/-- A list command of gathered nodes can be built, and may be given to a queue. -/
theorem Gathered.given {b : BufId} {addr off off' : ℕ} {nodes : List DmaNode}
    (h : Gathered b addr (max dram.dmaMaxElemSize 1) (nodeLimit dram sqMax) off nodes off')
    (hne : nodes ≠ []) (hdram : dram.dmaMaxElemSize < 2 ^ 32) (direction : Direction) (tag : Tag) :
    ∃ cmd, buildDmaList direction tag CmdFlags.barrier nodes = some cmd ∧
      ∀ call, Given dram sqMax call cmd := by
  have hcount := h.count (nodeLimit_pos dram sqMax)
  have hlt := size_lt_of_le_nodeLimit hcount
  have hfits : (direction.body nodes).Fits := by
    have hall := h.fits_all (by omega)
    cases direction <;> exact hall
  have hlist : ListFits (max dram.dmaMaxElemSize 1) (nodeLimit dram sqMax) nodes :=
    ⟨List.length_pos_iff.2 hne, h.count, fun n hn => (h.fits n hn).2.2⟩
  have hbuild : buildDmaList direction tag CmdFlags.barrier nodes =
      command (cmnHeaderSize + dmaNodeSize * nodes.length) tag (direction.body nodes).msgId
        CmdFlags.barrier (direction.body nodes) := by
    cases direction <;> rfl
  have hcmd := command_of_lt hlt tag (direction.body nodes).msgId CmdFlags.barrier
    (direction.body nodes)
  refine ⟨_, hbuild.trans hcmd, fun call => ⟨⟨encodes_of_command hcmd ?_ hfits,
    fun direction' nodes' hbody => ?_⟩, fun virt => ?_⟩⟩
  · cases direction <;> rfl
  · have hnodes : nodes' = nodes := by
      cases direction <;> cases direction' <;> simp_all [Direction.body]
    subst hnodes
    exact ⟨rfl, hlist⟩
  · cases direction <;> exact ⟨rfl, rfl⟩

/-- The widths of the arguments of the calls that build a command themselves. -/
def Call.Ranged : Call → Prop
  | .launchAsync kernel opts =>
    kernel.codeStartAddress < 2 ^ 64 ∧ opts.exceptionBuffer < 2 ^ 64 ∧ opts.shireMask < 2 ^ 64
  | .resetShires shireMask => shireMask < 2 ^ 64
  | _ => True

theorem Call.Ranged.builds {call : Call} (h : call.Ranged) :
    call.Builds (Given dram sqMax call) (· < 2 ^ 64) := by
  cases call with
  | launchAsync kernel opts =>
    intro tag pointerToArgs haddr
    obtain ⟨hcode, hexception, hmask⟩ := h
    have hlen := opts.payload_length_le
    have hlt : cmnHeaderSize + (kernelLaunchFixed + opts.payload.length) < 65536 := by
      simp only [cmnHeaderSize, kernelLaunchFixed]
      omega
    let launch : KernelLaunch := ⟨kernel.codeStartAddress, pointerToArgs, opts.exceptionBuffer,
      opts.shireMask, opts.payload⟩
    have hcmd := command_of_lt hlt tag (Body.kernelLaunch launch).msgId opts.flags
      (.kernelLaunch launch)
    have hfits : launch.Fits := ⟨hcode, haddr, hexception, hmask⟩
    refine ⟨_, hcmd, ⟨encodes_of_command hcmd rfl hfits, ?_⟩, fun virt =>
      ⟨kernel, opts, rfl, rfl, rfl, rfl⟩⟩
    intro direction nodes hbody
    cases direction <;> simp [Direction.body] at hbody
  | resetShires shireMask =>
    intro tag
    refine ⟨_, rfl, ⟨⟨rfl, rfl, h⟩, ?_⟩, fun virt => ⟨rfl, rfl, rfl⟩⟩
    intro direction nodes hbody
    cases direction <;> simp [Direction.body] at hbody
  | _ => trivial

/-! ## The invariant -/

/-- What the commands of a session depend on, and the commands themselves. -/
structure OfferState where
  dram : DramInfo
  machine : Machine
  maxListNodes : Option ℕ
  slots : List DeviceRegion
  offered : List Command

def Sys.offerState (s : Sys) : OfferState where
  dram := s.dev.dram
  machine := s.world.machine
  maxListNodes := s.dev.maxListNodes
  slots := s.dev.argsSlots.map (·.region)
  offered := s.offered

/-- The limit computed once is right, and `old` is all that was given to a queue before
commands that satisfy `B`. -/
structure Offering (dram : DramInfo) (machine : Machine) (B : Command → Prop) (old : List Command)
    (s : OfferState) : Prop where
  region : s.dram = dram
  device : s.machine = machine
  limit : ∀ n, s.maxListNodes = some n → n = nodeLimit dram machine.sqMaxMsgSize
  addrs : ∀ r ∈ s.slots, r.addr < 2 ^ 64
  offered : ∃ new, s.offered = new ++ old ∧ ∀ cmd ∈ new, B cmd

section
variable {B : Command → Prop} {old : List Command}

/-- Whatever was given to the queues may be called old. -/
theorem Offering.restart {B' : Command → Prop} {s : OfferState}
    (h : Offering dram machine B old s) : Offering dram machine B' s.offered s :=
  ⟨h.region, h.device, h.limit, h.addrs, [], rfl, fun _ hcmd => absurd hcmd List.not_mem_nil⟩

theorem deaf_offering (dram : DramInfo) (machine : Machine) (B : Command → Prop) (old : List Command) :
    Deaf (· ≠ commandSizePanic) B fun s => Offering dram machine B old s.offerState where
  waiting := by simp [commandSizePanic]
  panics := fun _ h => h
  act := fun s _ ds h =>
    ⟨h.region, (s.world.steps_machine ds).trans h.device, h.limit, h.addrs, h.offered⟩
  map := fun _ _ _ _ h => h
  fill := fun _ _ _ h => h
  unmapped := fun _ _ h => h
  staging := fun _ _ _ h => h
  taken := fun _ _ _ h => h
  tags := fun _ _ _ _ _ h => h
  log := fun _ _ h => h
  cut := fun _ _ h => h
  pop := fun _ _ h => h
  offer := fun s cmd hcmd h => by
    obtain ⟨new, hnew, hB⟩ := h.offered
    refine ⟨h.region, h.device, h.limit, h.addrs, cmd :: new, congrArg (cmd :: ·) hnew,
      fun cmd' hmem => ?_⟩
    rcases List.mem_cons.1 hmem with rfl | hmem
    · exact hcmd
    · exact hB cmd' hmem
  accept := fun _ _ _ _ _ h => h
  peak := fun _ _ _ h => h

theorem unpending_offering : Unpending fun s => Offering dram machine B old s.offerState :=
  fun _ _ h => h

theorem maxListNodes_offering : Triple (fun s => Offering dram machine B old s.offerState) maxListNodes
    ⟨fun n s => n = nodeLimit dram machine.sqMaxMsgSize ∧ Offering dram machine B old s.offerState,
      fun _ s => Offering dram machine B old s.offerState,
      fun r s => r ≠ commandSizePanic ∧ Offering dram machine B old s.offerState⟩ := by
  refine .read_bind fun dev => .intro (p := dev.dram = dram ∧ ∀ n, dev.maxListNodes = some n →
    n = nodeLimit dram machine.sqMaxMsgSize) (fun s hs => ?_) fun ⟨hdram, hlimit⟩ => ?_
  · obtain ⟨hs, rfl⟩ := hs
    exact ⟨hs.region, hs.limit⟩
  cases hmax : dev.maxListNodes with
  | some n => exact .pure fun s hs => ⟨hlimit n hmax, hs.1⟩
  | none =>
    refine .bind (((sqMaxMsgSize_triple machine).both (deaf_offering dram machine B old).sqMaxMsgSize).conseq
      (fun s hs => ⟨hs.1.device, hs.1⟩) (fun _ _ h => h) (fun _ _ h => h.2) fun _ h => h.2)
      fun msg => .and_pre fun hmsg => ?_
    rw [hmsg, hdram]
    exact .modify_bind (R := fun s => Offering dram machine B old s.offerState)
      (fun s hs => ⟨hs.region, hs.device, fun n hn => (Option.some.inj hn).symm, hs.addrs,
        hs.offered⟩) (.pure fun s hs => ⟨rfl, hs⟩)

theorem pushDmaStaged_offering (hdram : dram.dmaMaxElemSize < 2 ^ 32) (call : Call)
    (direction : Direction) (host : DmaHostBuffer) (len addr : ℕ) (opts : DmaOptions)
    (hB : ∀ cmd, Given dram machine.sqMaxMsgSize call cmd → B cmd) :
    Triple (fun s => Offering dram machine B old s.offerState)
      (pushDmaStaged direction host len addr opts)
      (Always (· ≠ commandSizePanic) fun s => Offering dram machine B old s.offerState) := by
  have hdeaf := deaf_offering dram machine B old
  refine .read_bind fun dev => .intro (p := dev.dram = dram) (fun s hs => hs.2 ▸ hs.1.region)
    fun hdev => .bind (maxListNodes_offering.pre fun _ h => h.1) fun maxNodes =>
      .and_pre fun hmax => ?_
  subst hmax
  rw [hdev]
  refine pushStagedFrom_triple (P := fun _ s => Offering dram machine B old s.offerState) (by omega)
    (fun _ s _ hs => ⟨by decide, hs⟩) (fun off nodes off' hnodes hne _ => ?_) len 0 0 [] (by omega)
    (by omega) (fun _ => rfl) ⟨rfl, by simp, by simp⟩ fun hpos => hpos
  refine hdeaf.pushList unpending_offering (.inl fun tag hnone => ?_) fun tag cmd hcmd => ?_
  · obtain ⟨cmd, hcmd, -⟩ := hnodes.given hne hdram direction tag
    simp [hcmd] at hnone
  · obtain ⟨cmd', hcmd', hgiven⟩ := hnodes.given hne hdram direction tag
    rw [hcmd] at hcmd'
    obtain rfl := Option.some.inj hcmd'
    exact hB _ (hgiven call)

end

/-- Where an allocation starts fits 64 bits. -/
theorem Sys.Hands.addr_lt {s : Sys} {size : ℕ} {region : DeviceRegion} (h : s.Hands size region) :
    region.addr < 2 ^ 64 := by
  obtain ⟨k, hk, -⟩ := cacheLine_dvd_allocAlignment s.dev.dram
  have halign := h.align
  rw [h.addr]
  rw [hk] at halign ⊢
  have hlt : k < 64 := (Nat.pow_lt_pow_iff_right (by omega : 1 < 2)).1 (by omega)
  exact (PowersOfTwo.alignUp_lt hlt halign).trans halign

theorem heapSteady_offering (machine : Machine) (hdram : dram.dmaMaxElemSize < 2 ^ 32) (call : Call)
    {B : Command → Prop} (hB : ∀ cmd, Given dram machine.sqMaxMsgSize call cmd → B cmd)
    (old : List Command) : HeapSteady (· ≠ commandSizePanic) B (· < 2 ^ 64)
      fun _ s => Offering dram machine B old s.offerState where
  deaf := fun _ => deaf_offering dram machine B old
  pending := fun _ => unpending_offering
  push := fun _ direction host len addr opts =>
    pushDmaStaged_offering hdram call direction host len addr opts hB
  slots := fun _ s i f hf h => ⟨h.region, h.device, h.limit, fun r hr => h.addrs r (by
    rwa [Sys.offerState, map_region_modify hf] at hr), h.offered⟩
  addr := fun _ s h slot hslot => h.addrs _ (List.mem_map.2 ⟨slot, hslot, rfl⟩)
  zero := by omega
  timeout := fun _ _ _ h => h
  allocated := fun _ _ _ _ h _ => h
  slot := fun _ s size region h hhands => by
    refine ⟨h.region, h.device, h.limit, fun r hr => ?_, h.offered⟩
    obtain ⟨slot, hslot, rfl⟩ := List.mem_map.1 hr
    rcases List.mem_append.1 hslot with hslot | hslot
    · exact h.addrs _ (List.mem_map.2 ⟨slot, hslot, rfl⟩)
    · obtain rfl := List.mem_singleton.1 hslot
      exact hhands.addr_lt
  marked := fun _ _ h => h
  reset := fun _ s k mark _ h => by
    refine ⟨h.region, h.device, h.limit, fun r hr => ?_, h.offered⟩
    obtain ⟨slot, hslot, rfl⟩ := List.mem_map.1 hr
    exact h.addrs _ (List.mem_map.2 ⟨slot, (List.mem_filter.1 hslot).1, rfl⟩)
  loaded := fun _ _ _ _ _ _ h _ => h

/-! ## The commands of a session -/

/-- A list command obeys every limit. -/
structure ListWellFormed (dram : DramInfo) (sqMax : ℕ) (header : CmnHeader)
    (nodes : List DmaNode) : Prop where
  barrier : header.flags = CmdFlags.barrier
  nonempty : 1 ≤ nodes.length
  count : nodes.length ≤ max 1 dram.dmaMaxElemCount
  size : 40 ≤ sqMax → header.size.toNat ≤ sqMax
  sizes : ∀ n ∈ nodes, 1 ≤ n.size ∧ n.size ≤ max 1 dram.dmaMaxElemSize

/-- The bytes given to a queue are as many as their header says, and read as the command. -/
structure WellFormed (dram : DramInfo) (sqMax : ℕ) (cmd : Command) : Prop where
  length : ∀ virt, (cmd.toBytes virt).length = cmd.header.size.toNat
  decodes : ∀ virt, WireCommand.read (cmd.toBytes virt) = some (cmd.wire virt)
  list : ∀ direction nodes, cmd.body = Direction.body direction nodes →
    ListWellFormed dram sqMax cmd.header nodes

theorem Sendable.wellFormed {cmd : Command} (h : Sendable dram sqMax cmd) :
    WellFormed dram sqMax cmd := by
  refine ⟨fun virt => (h.encodes.read_toBytes virt).1, fun virt => (h.encodes.read_toBytes virt).2,
    fun direction nodes hbody => ?_⟩
  obtain ⟨hflags, hlist⟩ := h.list direction nodes hbody
  have hcount := hlist.count (nodeLimit_pos dram sqMax)
  have hsize : cmd.header.size.toNat = cmnHeaderSize + dmaNodeSize * nodes.length := by
    rw [h.encodes.size, hbody]
    cases direction <;> rfl
  refine ⟨hflags, hlist.nonempty, hcount.trans (nodeLimit_le_count dram sqMax), fun hsq => ?_,
    fun n hn => ⟨(hlist.sizes n hn).1, ?_⟩⟩
  · rw [hsize]
    exact size_le_of_le_nodeLimit hcount hsq
  · rw [Nat.max_comm]
    exact (hlist.sizes n hn).2

/-- What a call gave to the queues is read as commands that it may give. -/
def Call.Gave (call : Call) (s t : Sys) : Prop :=
  ∃ new, t.offered = new ++ s.offered ∧ ∀ cmd ∈ new, ∀ virt, ∃ body,
    WireCommand.read (cmd.toBytes virt) = some ⟨cmd.header, body⟩ ∧ call.Gives ⟨cmd.header, body⟩

theorem Call.Builds.mono {B B' : Command → Prop} {A : ℕ → Prop} {call : Call}
    (h : call.Builds B A) (hB : ∀ cmd, B cmd → B' cmd) : call.Builds B' A := by
  cases call with
  | launchAsync kernel opts =>
    intro tag pointerToArgs haddr
    obtain ⟨cmd, hcmd, hsat⟩ := h tag pointerToArgs haddr
    exact ⟨cmd, hcmd, hB cmd hsat⟩
  | resetShires shireMask =>
    intro tag
    obtain ⟨cmd, hcmd, hsat⟩ := h tag
    exact ⟨cmd, hcmd, hB cmd hsat⟩
  | _ => trivial

namespace Session

/-- What holds of a session that has given `old`, and then commands satisfying `B`, to the queues. -/
abbrev HoldsOffering (setup : Setup) (B : Command → Prop) (old : List Command) (s : Session) : Prop :=
  s.Holds (· ≠ commandSizePanic) fun _ sys => Offering setup.dram setup.machine B old sys.offerState

variable {setup : Setup} {calls : List Call}

theorem offering_run (hdram : setup.dram.dmaMaxElemSize < 2 ^ 32)
    (hcalls : ∀ call ∈ calls, call.Ranged) :
    ((init setup).run calls).HoldsOffering setup
      (Sendable setup.dram setup.machine.sqMaxMsgSize) [] := by
  have hinit : Offering setup.dram setup.machine (Sendable setup.dram setup.machine.sqMaxMsgSize) []
      (init setup).sys.offerState :=
    ⟨rfl, rfl, fun n hn => by simp [init, Sys.init, Sys.offerState, Device.init] at hn,
      fun r hr => by simp [init, Sys.init, Sys.offerState, Device.init] at hr, [], rfl,
      fun cmd hcmd => absurd hcmd List.not_mem_nil⟩
  exact (heapSteady_offering setup.machine hdram .idle (fun _ h => h.sendable) []).steadfast.run
    (s := init setup) ⟨hinit, fun _ => rfl, by simp [init]⟩ fun call hcall =>
      (hcalls call hcall).builds.mono fun _ h => h.sendable

/-- A call gives to the queues only what is its own to give. -/
theorem offering_step (hdram : setup.dram.dmaMaxElemSize < 2 ^ 32)
    (hcalls : ∀ call ∈ calls, call.Ranged) {call : Call} (hcall : call.Ranged) :
    call.Gave ((init setup).run calls).sys (((init setup).run calls).step call).sys := by
  have hrun := offering_run hdram hcalls
  have hstep := (heapSteady_offering setup.machine hdram call (fun _ h => h)
    ((init setup).run calls).sys.offered).steadfast.step ⟨hrun.sys.restart, hrun.pending, hrun.reason⟩
    hcall.builds
  obtain ⟨new, hnew, hgiven⟩ := hstep.sys.offered
  exact ⟨new, hnew, fun cmd hcmd virt => ⟨_, ((hgiven cmd hcmd).sendable.encodes.read_toBytes virt).2,
    (hgiven cmd hcmd).gives virt⟩⟩

/-- Whatever a session does, no command is too long to build, all that is given to a queue is
well formed and is read as what the call at hand was asked for, each chunk of a transfer is
staged by the commands it pushed, and the command of a launch or of a reset bears the tag that
is waited for. -/
theorem commands_wellFormed (setup : Setup) (calls : List Call)
    (hdram : setup.dram.dmaMaxElemSize < 2 ^ 32) (hcalls : ∀ call ∈ calls, call.Ranged) :
    ((init setup).run calls).stopped ≠ some commandSizePanic ∧
      (∀ cmd ∈ ((init setup).run calls).sys.offered,
        WellFormed setup.dram setup.machine.sqMaxMsgSize cmd) ∧
      (∀ before call after, calls = before ++ call :: after →
        call.Gave ((init setup).run before).sys (((init setup).run before).step call).sys) ∧
      ((init setup).run calls).sys.nodeLimit =
        nodeLimit setup.dram setup.machine.sqMaxMsgSize ∧
      (∀ s direction host len addr opts, (Reports s direction opts.sqIndex host.id addr len).At
        (pushDmaStaged direction host len addr opts s)) ∧
      (∀ s kernel opts launch s', launchAsync kernel opts s = (.ok launch, s') →
        ∃ own pointerToArgs a,
          LaunchSent kernel opts s.world.accepted own pointerToArgs a launch s') ∧
      ∀ s shireMask s', resetShires shireMask s = (.ok (), s') →
        ∃ a rsp, ResetSent shireMask s.world.accepted a rsp s' := by
  have hrun := offering_run hdram hcalls
  refine ⟨fun hstop => hrun.reason _ hstop rfl, fun cmd hcmd => ?_, fun before call after heq => ?_, ?_,
    fun s direction host len addr opts => pushDmaStaged_reports direction host len addr opts s,
    fun _ _ _ _ _ => launchAsync_sent, fun _ _ _ => resetShires_sent⟩
  · obtain ⟨new, hnew, hsendable⟩ := hrun.sys.offered
    rw [List.append_nil] at hnew
    exact (hsendable cmd (hnew ▸ hcmd)).wellFormed
  · subst heq
    exact offering_step hdram (fun call' hmem => hcalls call' (List.mem_append_left _ hmem))
      (hcalls call (by simp))
  · have hregion : ((init setup).run calls).sys.dev.dram = setup.dram := hrun.sys.region
    have hdevice : ((init setup).run calls).sys.world.machine = setup.machine := hrun.sys.device
    rw [Sys.nodeLimit, hregion, hdevice]
    cases hmax : ((init setup).run calls).sys.dev.maxListNodes with
    | none => rfl
    | some n => exact hrun.sys.limit n hmax

/-- Three bytes of arguments, on a stack of its own. -/
def stacked : LaunchOptions :=
  { LaunchOptions.new 3 with flushL3 := true, args := [7, 8, 9], stack := some ⟨64, 4096⟩ }

/-- A copy, a launch and a reset. -/
def mixed : List Call :=
  [.memcpyH2d [1, 2, 3] 8 .default, .launchAsync ⟨4096⟩ stacked, .resetShires 5]

/-- A device that completes the copy, and the rest while the reset is waited for. -/
def mixing : Setup where
  machine := ⟨true, true, true, true, true, fun _ m => m, 4096⟩
  mem := fun _ => 0
  address := 0
  dram := ⟨65536, 2 ^ 20, 16, 2, 64⟩
  defaultTimeout := 5
  script := List.replicate 4 ⟨[], .yes⟩ ++
    [⟨[.start 0, .copy 0 0, .answer 0 (complete 0)], .response 0 0⟩] ++
    List.replicate 5 ⟨[], .yes⟩ ++
    [⟨[.start 1, .copy 1 0, .answer 1 (complete 1), .start 2, .exec 2, .answer 2 (complete 2),
      .start 3, .answer 3 ([16, 0, 3, 0, 0, 0, 0, 0] ++ List.replicate 8 0)], .response 3 0⟩]

theorem commands_wellFormed_mixed :
    ((init mixing).run mixed).sys.offered.length = 4 ∧
      (∀ cmd ∈ ((init mixing).run mixed).sys.offered,
        WellFormed mixing.dram mixing.machine.sqMaxMsgSize cmd) ∧
      (Call.launchAsync ⟨4096⟩ stacked).Gave ((init mixing).run (mixed.take 1)).sys
        (((init mixing).run (mixed.take 1)).step (.launchAsync ⟨4096⟩ stacked)).sys ∧
      (∃ launch s' own pointerToArgs a,
        launchAsync ⟨4096⟩ stacked ((init mixing).run (mixed.take 1)).sys = (.ok launch, s') ∧
          LaunchSent ⟨4096⟩ stacked ((init mixing).run (mixed.take 1)).sys.world.accepted own
            pointerToArgs a launch s') ∧
      ∃ s' a rsp, resetShires 5 ((init mixing).run (mixed.take 2)).sys = (.ok (), s') ∧
        ResetSent 5 ((init mixing).run (mixed.take 2)).sys.world.accepted a rsp s' := by
  obtain ⟨-, hformed, hgave, -, -, hlaunch, hreset⟩ := commands_wellFormed mixing mixed (by decide)
    (by simp [mixed, Call.Ranged, stacked, LaunchOptions.new])
  obtain ⟨launch, s₁, hrun₁⟩ : ∃ launch s', launchAsync ⟨4096⟩ stacked
    ((init mixing).run (mixed.take 1)).sys = (.ok launch, s') := Prog.eq_ok (by decide +kernel)
  obtain ⟨_, s₂, hrun₂⟩ : ∃ a s', resetShires 5 ((init mixing).run (mixed.take 2)).sys =
    (.ok a, s') := Prog.eq_ok (by decide +kernel)
  obtain ⟨own, pointerToArgs, a, hsent⟩ := hlaunch _ _ _ _ _ hrun₁
  obtain ⟨b, rsp, hsent'⟩ := hreset _ _ _ hrun₂
  exact ⟨by decide +kernel, hformed,
    hgave (mixed.take 1) (.launchAsync ⟨4096⟩ stacked) [.resetShires 5] rfl,
    ⟨launch, s₁, own, pointerToArgs, a, hrun₁, hsent⟩, s₂, b, rsp, hrun₂, hsent'⟩

end Session

end EtSoc

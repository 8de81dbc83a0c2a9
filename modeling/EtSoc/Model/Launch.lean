import EtSoc.Model.Load

/-! # Kernel launches -/

namespace EtSoc

open Program

structure LaunchOptions where
  shireMask : ℕ
  barrier : Bool
  flushL3 : Bool
  trace : Option TraceInitInfo
  args : List UInt8
  stack : Option UserStackCfg
  exceptionBuffer : ℕ
  sqIndex : UInt16
  timeout : Option Duration
deriving DecidableEq, Repr

/-- Launch on `shireMask` with a barrier and no tracing or arguments. -/
def LaunchOptions.new (shireMask : ℕ) : LaunchOptions where
  shireMask := shireMask
  barrier := true
  flushL3 := false
  trace := none
  args := []
  stack := none
  exceptionBuffer := 0
  sqIndex := 0
  timeout := none

def LaunchOptions.flags (opts : LaunchOptions) : UInt16 :=
  (if opts.barrier then CmdFlags.barrier else 0)
    ||| (if opts.flushL3 then CmdFlags.flushL3 else 0)
    ||| (if opts.trace.isSome then CmdFlags.computeKernelTrace else 0)
    ||| (if opts.stack.isSome then CmdFlags.userStackCfg else 0)

/-- The trace configuration, then the stack configuration. -/
def LaunchOptions.payload (opts : LaunchOptions) : List UInt8 :=
  (opts.trace.map TraceInitInfo.toBytes).getD []
    ++ (opts.stack.map UserStackCfg.toBytes).getD []

structure PendingLaunch where
  tag : Tag
  argsDma : List Tag
  timeout : Duration
deriving DecidableEq, Repr

structure LaunchResult where
  timing : LaunchTiming
deriving DecidableEq, Repr

/-! ## Arguments -/

def setSlot (i : ℕ) (f : ArgsSlot → ArgsSlot) : M Unit :=
  modifyDev fun d => { d with argsSlots := d.argsSlots.modify i f }

def assignOwner (i : ℕ) (tag : Option Tag) : M Unit :=
  match tag with
  | some tag => setSlot i fun s => { s with owner := some tag }
  | none => pure ()

/-- The buffer to fill with the arguments, mapped on first use. -/
def slotHost (slot : ArgsSlot) : M DmaHostBuffer :=
  match slot.host with
  | some host => pure host
  | none => dmaHostBuffer .arguments slot.region.size

/-- Copy `args` into the host buffer of slot `i` and push the commands writing them to its
region. Returns the device address of the region. -/
def pushArgsDma (i : ℕ) (args : List UInt8) (sqIndex : UInt16) : M ℕ := do
  let dev ← getDev
  let slot ← liftOption "index out of bounds" dev.argsSlots[i]?
  setSlot i fun s => { s with host := none }
  let host ← slotHost slot
  writeHost host args.length fun _ k => args.getD k 0
  let pushed ← (pushDmaWriteStaged host args.length slot.region.addr ⟨sqIndex, none⟩).attempt
  setSlot i fun s => { s with host := some host }
  let tags ← getPending
  assignOwner i tags.getLast?
  Prog.ofExcept (pushed.map fun _ => slot.region.addr)

/-- Without a barrier the launch could overtake its argument DMA, which is then awaited. -/
def awaitArgs (opts : LaunchOptions) : M Unit :=
  if opts.barrier then
    pure ()
  else do
    let tags ← getPending
    awaitDma tags.length opts.timeout "dma-writelist"

/-- Run `m`; if it fails, abandon the argument commands still pending. -/
def orAbandon {α : Type} (m : M α) : M α := do
  let result ← m.attempt
  match result with
  | .ok a => pure a
  | .error e => do
    abandonAll
    Prog.throw e

/-- Stage the arguments of a launch, if any: the slot used and its address. -/
def stageArgs (opts : LaunchOptions) : M (Option ℕ × ℕ) :=
  if opts.args.isEmpty then
    pure (none, 0)
  else do
    let slot ← argsSlot opts.args.length
    let addr ← orAbandon do
      let addr ← pushArgsDma slot opts.args opts.sqIndex
      awaitArgs opts
      pure addr
    pure (some slot, addr)

/-! ## Launching and waiting -/

def assignSlot (slot : Option ℕ) (tag : Tag) : M Unit :=
  match slot with
  | some i => assignOwner i (some tag)
  | none => pure ()

/-- Submit a kernel launch and return without blocking. -/
def launchAsync (kernel : LoadedKernel) (opts : LaunchOptions) : M PendingLaunch := do
  setPending []
  let (slot, pointerToArgs) ← stageArgs opts
  let tag ← orAbandon nextTag
  let cmd ← liftOption "command exceeds the u16 size field"
    (buildKernelLaunch tag opts.flags kernel.codeStartAddress pointerToArgs opts.exceptionBuffer
      opts.shireMask opts.payload)
  orAbandon (pushCmd opts.sqIndex cmd 0 tag)
  -- The slot now belongs to this launch until its completion is collected.
  assignSlot slot tag
  let dev ← getDev
  let argsDma ← getPending
  setPending []
  pure ⟨tag, argsDma, opts.timeout.getD dev.defaultTimeout⟩

/-- Block until a pending kernel launch completes and return its result. -/
def waitLaunch (launch : PendingLaunch) : M LaunchResult := do
  setPending launch.argsDma
  let staged ←
    (awaitDma launch.argsDma.length (some launch.timeout) "dma-writelist").attempt
  match staged with
  | .error e => do
    abandonAll
    abandon launch.tag
    Prog.throw e
  | .ok () => do
    let rsp ← collectResponse launch.tag (some launch.timeout) "kernel completion"
    match responseStatus rsp.bytes with
    | none => Prog.throw (.protocol "kernel-launch response truncated")
    | some status =>
      if status ≠ kernelCompleted then
        Prog.throw (.kernelLaunch status (kernelLaunchStatusName status)
          (parseKernelErrorPtr rsp.bytes))
      else
        pure ⟨parseLaunchTiming rsp.bytes⟩

/-- Reset the compute minions on the shires in `shireMask`. -/
def resetShires (shireMask : ℕ) : M Unit := do
  let tag ← nextTag
  let cmd ← liftOption "command exceeds the u16 size field" (buildCmReset tag shireMask)
  let dev ← getDev
  let rsp ← submit 0 cmd DescFlags.highPriority tag (some dev.defaultTimeout)
  match cmResetResponseStatus rsp.bytes with
  | none => Prog.throw (.protocol "CM reset response truncated")
  | some status =>
    if status ≠ cmResetSuccess then
      Prog.throw (.device "cm-reset" status)
    else
      pure ()

end EtSoc

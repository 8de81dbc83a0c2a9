import EtSoc.Library.PowersOfTwo
import EtSoc.Library.Program
import EtSoc.Model.World
import Mathlib.Data.Finset.Card

/-! # The host's state and its transport

A device handle, the device behind it, and a script of how the transport will behave:
each transport call consumes one choice, which first lets the device take some steps.
A script that has run out blocks the caller for ever. -/

namespace EtSoc

open Program

abbrev Duration := ℕ

/-! ## Errors -/

inductive Error where
  | io (op : String)
  | device (command : String) (code : UInt32)
  | kernelLaunch (status : UInt32) (statusName : String) (detail : Option KernelErrorPtr)
  | protocol (message : String)
  | limit (message : String)
  | elf (message : String)
  | outOfMemory (requested available : ℕ)
  | timeout (operation : String) (limit : Duration)
deriving DecidableEq, Repr

/-- The errors that the transports report. -/
inductive TransportError where
  | io (op : String)
  | protocol (message : String)

def TransportError.toError : TransportError → Error
  | .io op => .io op
  | .protocol message => .protocol message

/-! ## The device handle -/

structure DramInfo where
  base : ℕ
  size : ℕ
  dmaMaxElemSize : ℕ
  dmaMaxElemCount : ℕ
  dmaAlignment : ℕ
deriving DecidableEq, Repr

/-- The reported alignment, at least one, rounded up to a power of two. -/
def DramInfo.alignment (dram : DramInfo) : ℕ :=
  PowersOfTwo.nextPowerOfTwo (max dram.dmaAlignment 1)

structure DeviceRegion where
  addr : ℕ
  size : ℕ
deriving DecidableEq, Repr

def DeviceRegion.endAddr (r : DeviceRegion) : ℕ := r.addr + r.size

structure DmaHostBuffer where
  id : BufId
  len : ℕ
  physAddr : ℕ
deriving DecidableEq, Repr

/-- A popped response, with the command it answers. -/
structure PoppedResponse where
  bytes : List UInt8
  cqIndex : ℕ
  /-- Ghost: nothing the host does depends on it. -/
  origin : Option ℕ
deriving DecidableEq, Repr

structure ArgsSlot where
  region : DeviceRegion
  host : Option DmaHostBuffer
  owner : Option Tag
deriving DecidableEq, Repr

structure Device where
  /-- Where the handle itself lies in host memory. -/
  address : ℕ
  staging : List DmaHostBuffer
  stagingCapacity : ℕ
  argsSlots : List ArgsSlot
  dram : DramInfo
  next : ℕ
  kernelEnd : ℕ
  tag : Tag
  outstanding : Finset Tag
  abandoned : Finset Tag
  maxListNodes : Option ℕ
  stash : Tag → Option PoppedResponse
  defaultTimeout : Duration

/-! ## Transport behaviour -/

inductive Answer where
  | yes
  | no
  | fail (error : TransportError)
  /-- The response to a command. -/
  | response (c : ℕ) (cqIndex : ℕ)
  /-- Bytes that answer no command, from a device of which nothing is known. -/
  | forged (bytes : List UInt8) (cqIndex : ℕ)
  | buffer (contents : List UInt8) (physAddr : ℕ)

/-- What the device does before a transport call and how the call then ends. -/
structure Choice where
  steps : List World.DevStep
  answer : Answer

/-! ## Ghost records -/

/-- What happened at the queues. -/
inductive QueueEvent where
  | pushed (tag : Tag) (c : ℕ)
  | popped (rsp : PoppedResponse)
  | collecting (tag : Tag)
  | collected (tag : Tag) (rsp : PoppedResponse)
  /-- The waiter of a tag gave up on it. -/
  | gaveUp (tag : Tag)
deriving DecidableEq

/-- What happened to the device memory that the host hands out. -/
inductive HeapEvent where
  | allocated (region : DeviceRegion)
  | marked
  /-- A reset to the `k`th mark taken; an ignored one is not recorded. -/
  | reset (k : ℕ)
  | loaded (segments : List (ℕ × ℕ)) (kernelEnd : ℕ)

/-- A host buffer and the size it was asked for. -/
structure Mapping where
  buffer : DmaHostBuffer
  requested : ℕ
deriving DecidableEq, Repr

/-- The staging buffers taken for a transfer of `total` bytes. -/
structure Taking where
  total : ℕ
  buffers : List DmaHostBuffer
  capacity : ℕ
  alignment : ℕ
deriving DecidableEq, Repr

structure Sys where
  dev : Device
  world : World
  script : List Choice
  /-- The tags pushed by the running operation and not yet collected. -/
  pending : List Tag
  /-- Ghost: the tags that early returns of `awaitDma` left neither collected, abandoned
  nor pending. -/
  cut : List Tag
  /-- Ghost, newest first. -/
  log : List QueueEvent
  /-- Ghost, newest first. -/
  heap : List HeapEvent
  /-- Ghost: the host buffers that were unmapped. -/
  unmapped : List BufId
  /-- Ghost: the commands given to a submission queue, taken or not; newest first. -/
  offered : List Command
  /-- Ghost: the host buffers mapped, newest first. -/
  mapped : List Mapping
  /-- Ghost, newest first. -/
  taken : List Taking
  /-- Ghost: the staged transfers that were begun and have not succeeded. -/
  unfinished : ℕ
  /-- Ghost: the most tags that were outstanding when a queue took a command. -/
  peak : ℕ

def Sys.init (dev : Device) (world : World) (script : List Choice) : Sys where
  dev := dev
  world := world
  script := script
  pending := []
  cut := []
  log := []
  heap := []
  unmapped := []
  offered := []
  mapped := []
  taken := []
  unfinished := 0
  peak := 0

/-- A host operation. -/
abbrev M := Prog Sys Error

/-! ## Primitive operations -/

def liftOption {α : Type} (message : String) : Option α → M α
  | some a => pure a
  | none => Prog.panic message

/-- Checked 64-bit addition. -/
def u64Add (a b : ℕ) : M ℕ :=
  if a + b < 2 ^ 64 then pure (a + b) else Prog.panic "attempt to add with overflow"

def getDev : M Device := Prog.read Sys.dev

def modifyDev (f : Device → Device) : M Unit := Prog.modify fun s => { s with dev := f s.dev }

def modifyWorld (f : World → World) : M Unit := Prog.modify fun s => { s with world := f s.world }

def record (e : QueueEvent) : M Unit := Prog.modify fun s => { s with log := e :: s.log }

def recordHeap (e : HeapEvent) : M Unit := Prog.modify fun s => { s with heap := e :: s.heap }

def getPending : M (List Tag) := Prog.read Sys.pending

def setPending (tags : List Tag) : M Unit := Prog.modify fun s => { s with pending := tags }

/-- Let the device act as the script says, and learn how the transport call ends. -/
def consult : M Answer := fun s =>
  match s.script with
  | [] => Prog.block s
  | choice :: script =>
    (.ok choice.answer, { s with script := script, world := s.world.steps choice.steps })

/-- Let the device act before the host touches shared memory. -/
def tick : M Unit := do
  let _ ← consult
  pure ()

/-- The errors of a call, and otherwise whether it said yes. -/
def decision (answer : Answer) : M Bool :=
  match answer with
  | .fail e => Prog.throw e.toError
  | .yes => pure true
  | _ => pure false

def offer (cmd : Command) : M Unit := Prog.modify fun s => { s with offered := cmd :: s.offered }

def recordPeak : M Unit :=
  Prog.modify fun s => { s with peak := max s.peak s.dev.outstanding.card }

/-- `Transport::push_sq`. -/
def pushSq (sqIndex : UInt16) (cmd : Command) (descFlags : UInt8) : M Bool := do
  offer cmd
  let answer ← consult
  let taken ← decision answer
  if taken then
    let c ← Prog.read fun s => s.world.accepted.length
    modifyWorld fun w => w.accept sqIndex descFlags cmd
    record (.pushed cmd.tagId c)
    recordPeak
    pure true
  else
    pure false

/-- `Transport::wait_sq` and `Transport::wait_cq`. -/
def waitReady : M Bool := do
  let answer ← consult
  decision answer

/-- `Transport::pop_cq`. -/
def popCq : M (Option PoppedResponse) := do
  let answer ← consult
  let w ← Prog.read Sys.world
  match answer with
  | .fail e => Prog.throw e.toError
  | .response c cqIndex =>
    match w.answer c with
    | some bytes =>
      if w.popped c then
        pure none
      else do
        modifyWorld fun w => w.pop c
        record (.popped ⟨bytes, cqIndex, some c⟩)
        pure (some ⟨bytes, cqIndex, some c⟩)
    | none => pure none
  | .forged bytes cqIndex =>
    if w.machine.bearsTag then
      pure none
    else do
      record (.popped ⟨bytes, cqIndex, none⟩)
      pure (some ⟨bytes, cqIndex, none⟩)
  | _ => pure none

/-- `Instant::now() >= deadline`. -/
def expired : M Bool := do
  let answer ← consult
  match answer with
  | .yes => pure true
  | _ => pure false

/-- `Transport::dma_host_buffer`: a buffer of at least `size` bytes. -/
def dmaHostBuffer (purpose : Purpose) (size : ℕ) : M DmaHostBuffer := do
  let answer ← consult
  let serial ← Prog.read fun s => s.world.nextBuf
  let mapped (contents : List UInt8) (physAddr : ℕ) : M DmaHostBuffer := do
    let buffer : DmaHostBuffer := ⟨⟨purpose, serial⟩, max size contents.length, physAddr⟩
    modifyWorld fun w => w.map purpose contents
    Prog.modify fun s => { s with mapped := ⟨buffer, size⟩ :: s.mapped }
    pure buffer
  match answer with
  | .fail e => Prog.throw e.toError
  | .buffer contents physAddr => mapped contents physAddr
  | _ => mapped [] 0

/-- `Transport::sq_max_msg_size`. -/
def sqMaxMsgSize : M ℕ := do
  let answer ← consult
  match answer with
  | .fail e => Prog.throw e.toError
  | _ => Prog.read fun s => s.world.machine.sqMaxMsgSize

/-- Unmap buffers, by dropping them. -/
def unmap (buffers : List DmaHostBuffer) : M Unit :=
  Prog.modify fun s => { s with unmapped := buffers.map (·.id) ++ s.unmapped }

/-- Overwrite the first `len` bytes of a buffer, given their old contents. -/
def writeHost (buffer : DmaHostBuffer) (len : ℕ) (contents : Memory → Memory) : M Unit := do
  tick
  modifyWorld fun w =>
    w.fill buffer.id (Spans.blit (w.host buffer.id) 0 (contents (w.host buffer.id)) 0 len)

/-- Read the first `len` bytes of a buffer. -/
def readHost (buffer : DmaHostBuffer) (len : ℕ) : M (List UInt8) := do
  tick
  Prog.read fun s => (List.range len).map (s.world.host buffer.id)

end EtSoc

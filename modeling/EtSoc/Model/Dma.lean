import EtSoc.Model.Alloc

/-! # DMA transfers

Staging buffers, the split of a transfer into chunks, commands and list nodes, and the
two pipelines. -/

namespace EtSoc

open Program PowersOfTwo

structure DmaOptions where
  sqIndex : UInt16
  timeout : Option Duration
deriving DecidableEq, Repr

def DmaOptions.default : DmaOptions := ⟨0, none⟩

inductive Direction where
  /-- Device to host. -/
  | read
  /-- Host to device. -/
  | write
deriving DecidableEq, Repr

/-! ## Splitting -/

/-- Largest number of list nodes a single command may carry. -/
def maxListNodes : M ℕ := do
  let dev ← getDev
  match dev.maxListNodes with
  | some n => pure n
  | none => do
    let byField := (65535 - cmnHeaderSize) / dmaNodeSize
    let msg ← sqMaxMsgSize
    let byMessage := (msg - cmnHeaderSize) / dmaNodeSize
    let n := max (min (min dev.dram.dmaMaxElemCount byField) byMessage) 1
    modifyDev fun d => { d with maxListNodes := some n }
    pure n

/-- Physical address for a node at `offset`; a zero base leaves it to the backend. -/
def nodePhys (base offset : ℕ) : M ℕ :=
  if base = 0 then pure 0 else u64Add base offset

def buildDmaList (direction : Direction) (tag : Tag) (flags : UInt16) (nodes : List DmaNode) :
    Option Command :=
  match direction with
  | .read => buildDmaReadlist tag flags nodes
  | .write => buildDmaWritelist tag flags nodes

/-- Push one list command, and add its tag to the pending ones. -/
def pushList (direction : Direction) (sqIndex : UInt16) (nodes : List DmaNode) : M Unit := do
  let tag ← nextTag
  let cmd ← liftOption "command exceeds the u16 size field"
    (buildDmaList direction tag CmdFlags.barrier nodes)
  pushCmd sqIndex cmd DescFlags.dma tag
  let tags ← getPending
  setPending (tags ++ [tag])

/-- The loop of the two staging functions from byte `offset` on, with the `nodes` of the
command being built; `n` bounds its rounds, each of which adds a node. -/
def pushStagedFrom (direction : Direction) (host : DmaHostBuffer) (len addr : ℕ)
    (opts : DmaOptions) (maxElem maxNodes : ℕ) : ℕ → ℕ → List DmaNode → M Unit
  | 0, _, _ => pure ()
  | n + 1, offset, nodes =>
    if offset < len then do
      let size := min (len - offset) maxElem
      let phys ← nodePhys host.physAddr offset
      let device ← u64Add addr offset
      let nodes := nodes ++ [⟨⟨host.id, offset⟩, phys, device, size⟩]
      if nodes.length = maxNodes ∨ len ≤ offset + size then do
        pushList direction opts.sqIndex nodes
        pushStagedFrom direction host len addr opts maxElem maxNodes n (offset + size) []
      else
        pushStagedFrom direction host len addr opts maxElem maxNodes n (offset + size) nodes
    else
      pure ()

/-- Push, without awaiting, the list commands transferring the first `len` bytes of
`host` from or to device address `addr`. -/
def pushDmaStaged (direction : Direction) (host : DmaHostBuffer) (len addr : ℕ)
    (opts : DmaOptions) : M Unit := do
  let dev ← getDev
  let maxElem := max dev.dram.dmaMaxElemSize 1
  let maxNodes ← maxListNodes
  pushStagedFrom direction host len addr opts maxElem maxNodes len 0 []

def pushDmaReadStaged := pushDmaStaged .read

def pushDmaWriteStaged := pushDmaStaged .write

/-! ## Awaiting -/

/-- Collect the response of `tag` and check that it reports success. -/
def awaitTag (timeout : Option Duration) (command : String) (tag : Tag) : M Unit := do
  let rsp ← collectResponse tag timeout "DMA completion"
  match responseStatus rsp.bytes with
  | none => Prog.throw (.protocol (command ++ " response truncated"))
  | some status =>
    if status ≠ dmaResponseComplete then
      Prog.throw (.device command status)
    else
      pure ()

/-- Await `tags`, oldest first. -/
def awaitEach (timeout : Option Duration) (command : String) : List Tag → M Unit
  | [] => pure ()
  | tag :: tags => do
    let awaited ← (awaitTag timeout command tag).attempt
    match awaited with
    | .ok () => awaitEach timeout command tags
    | .error e => do
      -- The tags not reached go with the vector that was drained.
      Prog.modify fun s => { s with cut := tags ++ s.cut }
      Prog.throw e

/-- Collect the completions of the first `count` pending commands, which are removed from
the pending ones before any is awaited. -/
def awaitDma (count : ℕ) (timeout : Option Duration) (command : String) : M Unit := do
  let tags ← getPending
  if tags.length < count then
    Prog.panic "range end index out of range"
  else do
    setPending (tags.drop count)
    awaitEach timeout command (tags.take count)

/-- Whether a failed command may have left the device still accessing its buffer. -/
def dmaMayBeInFlight : Error → Bool
  | .timeout .. | .io _ | .protocol _ => true
  | _ => false

/-! ## Staging buffers -/

/-- A staging capacity: a positive multiple of twice the DMA alignment. -/
def alignStagingCapacity (bytes : ℕ) (dram : DramInfo) : ℕ :=
  let quantum := 2 * dram.alignment
  max (bytes / quantum) 1 * quantum

def setStagingCapacity (bytes : ℕ) : M Unit := do
  let dev ← getDev
  unmap dev.staging
  modifyDev fun d =>
    { d with stagingCapacity := alignStagingCapacity bytes d.dram, staging := [] }

/-- Chunk length for a pipelined transfer: the length of the smallest buffer. -/
def stagingChunk (buffers : List DmaHostBuffer) : ℕ :=
  max ((buffers.map (·.len)).min?.getD 1) 1

/-- Replace the buffers from `index` on, `n` in number, that hold less than `required`. -/
def growStaging (required half : ℕ) : ℕ → ℕ → List DmaHostBuffer → M (List DmaHostBuffer)
  | 0, _, buffers => pure buffers
  | n + 1, index, buffers =>
    if ∃ b ∈ buffers[index]?, required ≤ b.len then
      growStaging required half n (index + 1) buffers
    else do
      unmap buffers[index]?.toList
      let buffers := buffers.eraseIdx index
      let mapped ← (dmaHostBuffer .staging (min (nextPowerOfTwo required) half)).attempt
      match mapped with
      | .ok replacement =>
        growStaging required half n (index + 1) (buffers.insertIdx index replacement)
      | .error e => do
        modifyDev fun d => { d with staging := buffers }
        Prog.throw e

def countUnfinished (f : ℕ → ℕ) : M Unit :=
  Prog.modify fun s => { s with unfinished := f s.unfinished }

/-- Take the staging buffers for one transfer of `total` bytes. -/
def takeStaging (total : ℕ) : M (List DmaHostBuffer) := do
  let dev ← getDev
  let half := dev.stagingCapacity / 2
  modifyDev fun d => { d with staging := [] }
  countUnfinished (· + 1)
  let buffers ←
    growStaging (min total half) half (if half < total then 2 else 1) 0 dev.staging
  Prog.modify fun s =>
    { s with taken := ⟨total, buffers, dev.stagingCapacity, dev.dram.alignment⟩ :: s.taken }
  pure buffers

/-- Whether the buffers of a transfer must be leaked: it failed with a command left in
`pending`, or with one that may be in flight. -/
def mustLeak (uncollected : Bool) (result : Except Error Unit) : Bool :=
  match result with
  | .error e => uncollected || dmaMayBeInFlight e
  | .ok () => false

/-- Abandon the commands still pending, and report whether there were any. -/
def abandonPending : M Bool := do
  let tags ← getPending
  abandonAll
  pure (!tags.isEmpty)

/-- Return the staging buffers after a transfer, or leak them. -/
def restoreStaging (buffers : List DmaHostBuffer) (result : Except Error Unit) : M Unit := do
  countUnfinished fun n => if result.isOk then n - 1 else n
  let uncollected ← abandonPending
  if mustLeak uncollected result then
    pure ()
  else do
    -- Nothing was put back meanwhile, so nothing is dropped here.
    let dev ← getDev
    unmap dev.staging
    modifyDev fun d => { d with staging := buffers }

/-! ## Pipelines -/

/-- The `index`th buffer, cyclically. -/
def cycled (buffers : List DmaHostBuffer) (index : ℕ) : M DmaHostBuffer :=
  liftOption "index out of bounds" buffers[index % buffers.length]?

/-- What a closure that fills a staged chunk writes: the number of earlier calls, the old
contents of the chunk and the offset of the chunk in the transfer determine it. -/
abbrev Produce := ℕ → Memory → ℕ → Memory

/-- The rounds of the host-to-device pipeline for the chunks of `indices`, with the number
of commands of the chunk pushed before them. -/
def h2dChunks (buffers : List DmaHostBuffer) (total dst : ℕ) (opts : DmaOptions)
    (produce : Produce) (chunk : ℕ) : List ℕ → ℕ → M ℕ
  | [], previousCommands => pure previousCommands
  | index :: indices, previousCommands => do
    let offset := index * chunk
    let len := min chunk (total - offset)
    let buffer ← cycled buffers index
    writeHost buffer len fun staged => produce index staged offset
    let addr ← u64Add dst offset
    pushDmaWriteStaged buffer len addr opts
    awaitDma previousCommands opts.timeout "dma-writelist"
    let tags ← getPending
    h2dChunks buffers total dst opts produce chunk indices tags.length

def chunkCount (total chunk : ℕ) : ℕ := (total + chunk - 1) / chunk

def h2dPipeline (buffers : List DmaHostBuffer) (total dst : ℕ) (opts : DmaOptions)
    (produce : Produce) : M Unit := do
  let chunk := stagingChunk buffers
  let previousCommands ←
    h2dChunks buffers total dst opts produce chunk (List.range (chunkCount total chunk)) 0
  awaitDma previousCommands opts.timeout "dma-writelist"

/-- Push the commands reading chunk `index` of a transfer. -/
def readChunk (buffers : List DmaHostBuffer) (src total : ℕ) (opts : DmaOptions)
    (chunk index : ℕ) : M Unit := do
  let offset := index * chunk
  let len := min chunk (total - offset)
  let buffer ← cycled buffers index
  let addr ← u64Add src offset
  pushDmaReadStaged buffer len addr opts

/-- Push the commands reading the chunk after `index`, if there is one. -/
def readNext (buffers : List DmaHostBuffer) (src total : ℕ) (opts : DmaOptions)
    (chunk index : ℕ) : M Unit :=
  if index + 1 < chunkCount total chunk then
    readChunk buffers src total opts chunk (index + 1)
  else
    pure ()

/-- The rounds of the device-to-host pipeline for the chunks of `indices`; returns the
bytes of those chunks. -/
def d2hChunks (buffers : List DmaHostBuffer) (src total : ℕ) (opts : DmaOptions)
    (chunk : ℕ) : List ℕ → M (List UInt8)
  | [] => pure []
  | index :: indices => do
    let current ← getPending
    readNext buffers src total opts chunk index
    awaitDma current.length opts.timeout "dma-readlist"
    let buffer ← cycled buffers index
    let out ← readHost buffer (min chunk (total - index * chunk))
    let rest ← d2hChunks buffers src total opts chunk indices
    pure (out ++ rest)

def d2hPipeline (buffers : List DmaHostBuffer) (src total : ℕ) (opts : DmaOptions) :
    M (List UInt8) := do
  let chunk := stagingChunk buffers
  readChunk buffers src total opts chunk 0
  d2hChunks buffers src total opts chunk (List.range (chunkCount total chunk))

/-! ## Staged transfers -/

/-- Run `transfer` on the staging buffers, and put them back or leak them. -/
def staged {α : Type} (total : ℕ) (transfer : List DmaHostBuffer → M α) : M α := do
  setPending []
  let buffers ← takeStaging total
  let result ← (transfer buffers).attempt
  restoreStaging buffers (result.map fun _ => ())
  Prog.ofExcept result

/-- Write `total` bytes to device address `dst` through the staging buffers. -/
def h2dStaged (total dst : ℕ) (opts : DmaOptions) (produce : Produce) : M Unit :=
  if total = 0 then
    pure ()
  else
    staged total fun buffers => h2dPipeline buffers total dst opts produce

def memcpyH2dOpts (src : List UInt8) (dst : ℕ) (opts : DmaOptions) : M Unit :=
  h2dStaged src.length dst opts fun _ _ offset i => src.getD (offset + i) 0

def memcpyH2d (src : List UInt8) (dst : ℕ) : M Unit := memcpyH2dOpts src dst .default

/-- Read `total` bytes from device address `src`; returns what ends in the caller's slice. -/
def memcpyD2hOpts (src total : ℕ) (opts : DmaOptions) : M (List UInt8) :=
  if total = 0 then
    pure []
  else
    staged total fun buffers => d2hPipeline buffers src total opts

def memcpyD2h (src total : ℕ) : M (List UInt8) := memcpyD2hOpts src total .default

/-! ## Pinned buffers -/

structure PinnedBuffer where
  host : Option DmaHostBuffer
  len : ℕ
  /-- Address of the creating device handle. -/
  device : ℕ
deriving DecidableEq, Repr

def allocPinned (len : ℕ) : M PinnedBuffer := do
  let host ← dmaHostBuffer .pinned len
  let dev ← getDev
  pure ⟨some host, len, dev.address⟩

/-- Run `transfer` over the mapping of `buffer`; returns the buffer as it is afterwards
and how the transfer ended. -/
def pinnedTransfer (buffer : PinnedBuffer) (transfer : DmaHostBuffer → ℕ → M Unit) :
    M (PinnedBuffer × Except Error Unit) := do
  let dev ← getDev
  if buffer.device ≠ dev.address then
    pure (buffer, .error (.limit "pinned buffer was allocated by a different device"))
  else
    match buffer.host with
    | none => pure (buffer, .ok ())
    | some host =>
      if buffer.len = 0 then
        pure (buffer, .ok ())
      else do
        setPending []
        let result ← (transfer host buffer.len).attempt
        let uncollected ← abandonPending
        if mustLeak uncollected result then
          pure (⟨none, 0, buffer.device⟩, result)
        else
          pure (buffer, result)

/-- Push all commands of a pinned transfer and await them. -/
def transferPinned (direction : Direction) (addr : ℕ) (opts : DmaOptions) (command : String)
    (host : DmaHostBuffer) (len : ℕ) : M Unit := do
  pushDmaStaged direction host len addr opts
  let tags ← getPending
  awaitDma tags.length opts.timeout command

def memcpyH2dPinnedOpts (src : PinnedBuffer) (dst : ℕ) (opts : DmaOptions) :
    M (PinnedBuffer × Except Error Unit) :=
  pinnedTransfer src (transferPinned .write dst opts "dma-writelist")

def memcpyD2hPinnedOpts (src : ℕ) (dst : PinnedBuffer) (opts : DmaOptions) :
    M (PinnedBuffer × Except Error Unit) :=
  pinnedTransfer dst (transferPinned .read src opts "dma-readlist")

end EtSoc

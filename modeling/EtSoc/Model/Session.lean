import EtSoc.Model.Buffers
import EtSoc.Model.Launch

/-! # Sessions

A client calls the operations of one device handle, one after the other. It names the
allocation marks, launches and pinned buffers it was given by the order it got them in. -/

namespace EtSoc

open Program

inductive Call where
  | alloc (size : ℕ)
  | allocArray (elemSize n : ℕ)
  | upload (elemSize n : ℕ) (data : List UInt8)
  | allocPadded (elemSize n : ℕ)
  | allocTensorMatrix (rows cols : ℕ)
  | allocMark
  | resetTo (k : ℕ)
  /-- No slice is longer. -/
  | loadKernel (image : List UInt8) (slice : image.length < 2 ^ 63)
  | launchAsync (kernel : LoadedKernel) (opts : LaunchOptions)
  | waitLaunch (k : ℕ)
  | dropLaunch (k : ℕ)
  | memcpyH2d (src : List UInt8) (dst : ℕ) (opts : DmaOptions)
  | memcpyD2h (src len : ℕ) (opts : DmaOptions)
  | fill (region : DeviceRegion) (value : UInt8)
  | allocPinned (len : ℕ)
  | writePinned (k : ℕ) (data : List UInt8)
  | memcpyH2dPinned (k dst : ℕ) (opts : DmaOptions)
  | memcpyD2hPinned (src k : ℕ) (opts : DmaOptions)
  | dropPinned (k : ℕ)
  | resetShires (shireMask : ℕ)
  | setStagingCapacity (bytes : ℕ)
  | setDefaultLaunchTimeout (timeout : Duration)
  /-- The client does nothing while the device acts. -/
  | idle

/-- What a call returned. -/
inductive Reply where
  | done
  | region (region : DeviceRegion)
  | matrix (addr stride : ℕ)
  | kernel (kernel : LoadedKernel)
  /-- A launch was submitted, as the command `c`. -/
  | launched (c : ℕ)
  | finished (result : LaunchResult)
  | bytes (data : List UInt8)
  | failed (error : Error)

/-- What the client did with a launch handle. -/
inductive HandleState where
  | held
  | waited
  | dropped
deriving DecidableEq, Repr

structure Handle where
  launch : PendingLaunch
  state : HandleState
  /-- Ghost: what was launched, and as which command. -/
  opts : LaunchOptions
  cmd : ℕ

structure Session where
  sys : Sys
  marks : List AllocMark
  handles : List Handle
  pinned : List PinnedBuffer
  /-- The calls that returned and their replies, newest first. -/
  replies : List (Call × Reply)
  /-- Why a call did not return, if one has blocked for ever or panicked. -/
  stopped : Option Stop

/-! ## Starting -/

def Device.init (address : ℕ) (dram : DramInfo) (defaultTimeout : Duration) : Device where
  address := address
  staging := []
  stagingCapacity := alignStagingCapacity (2 ^ 24) dram
  argsSlots := []
  dram := dram
  next := dram.base
  kernelEnd := dram.base
  tag := 0
  outstanding := ∅
  abandoned := ∅
  maxListNodes := none
  stash := fun _ => none
  defaultTimeout := defaultTimeout

/-- What a session starts from. -/
structure Setup where
  machine : Machine
  mem : Memory
  address : ℕ
  dram : DramInfo
  defaultTimeout : Duration
  script : List Choice

def Session.init (setup : Setup) : Session where
  sys := Sys.init (Device.init setup.address setup.dram setup.defaultTimeout)
    (World.init setup.machine setup.mem) setup.script
  marks := []
  handles := []
  pinned := []
  replies := []
  stopped := none

/-! ## Calls -/

namespace Session

/-- Make a call; `keep` stores what the client keeps of its result. -/
def perform {α : Type} (s : Session) (call : Call) (m : M α)
    (keep : Session → α → Session × Reply) : Session :=
  match m s.sys with
  | (.ok a, sys) =>
    let (s, reply) := keep { s with sys := sys } a
    { s with replies := (call, reply) :: s.replies }
  | (.err e, sys) => { s with sys := sys, replies := (call, .failed e) :: s.replies }
  | (.stop r, sys) => { s with sys := sys, stopped := some r }

def simple (s : Session) (call : Call) (m : M Unit) : Session :=
  s.perform call m fun s _ => (s, .done)

/-- A transfer of the `k`th pinned buffer. -/
def transferPinned (s : Session) (call : Call) (k : ℕ)
    (m : PinnedBuffer → M (PinnedBuffer × Except Error Unit))
    (reply : Session → PinnedBuffer → Reply) : Session :=
  match s.pinned[k]? with
  | some buffer =>
    s.perform call (m buffer) fun s (buffer, result) =>
      let s := { s with pinned := s.pinned.set k buffer }
      match result with
      | .ok () => (s, reply s buffer)
      | .error e => (s, .failed e)
  | none => s

/-- The contents of a pinned buffer. -/
def pinnedBytes (s : Session) (buffer : PinnedBuffer) : List UInt8 :=
  match buffer.host with
  | some host => (List.range buffer.len).map (s.sys.world.host host.id)
  | none => []

def writePinned (buffer : PinnedBuffer) (data : List UInt8) : M Unit :=
  match buffer.host with
  | some host => writeHost host buffer.len fun old i => data.getD i (old i)
  | none => pure ()

/-- Take the `k`th launch handle from the client, if it still holds it. -/
def take (s : Session) (k : ℕ) (state : HandleState) : Option (Handle × Session) :=
  match s.handles[k]? with
  | some handle =>
    if handle.state = .held then
      some (handle, { s with handles := s.handles.set k { handle with state := state } })
    else
      none
  | none => none

def step (s : Session) (call : Call) : Session :=
  if s.stopped.isSome then s else
  match call with
  | .alloc size => s.perform call (EtSoc.alloc size) fun s r => (s, .region r)
  | .allocArray elemSize n => s.perform call (allocArray elemSize n) fun s r => (s, .region r)
  | .upload elemSize n data => s.perform call (upload elemSize n data) fun s r => (s, .region r)
  | .allocPadded elemSize n => s.perform call (allocPadded elemSize n) fun s r => (s, .region r)
  | .allocTensorMatrix rows cols =>
    s.perform call (allocTensorMatrix rows cols) fun s (addr, stride) => (s, .matrix addr stride)
  | .allocMark =>
    s.perform call allocMark fun s mark => ({ s with marks := s.marks ++ [mark] }, .done)
  | .resetTo k =>
    match s.marks[k]? with
    | some mark => s.simple call (EtSoc.resetTo k mark)
    | none => s
  | .loadKernel image _ => s.perform call (EtSoc.loadKernel image) fun s k => (s, .kernel k)
  | .launchAsync kernel opts =>
    s.perform call (EtSoc.launchAsync kernel opts) fun s launch =>
      let c := s.sys.world.accepted.length - 1
      ({ s with handles := s.handles ++ [⟨launch, .held, opts, c⟩] }, .launched c)
  | .waitLaunch k =>
    match s.take k .waited with
    | some (handle, s) =>
      s.perform call (EtSoc.waitLaunch handle.launch) fun s r => (s, .finished r)
    | none => s
  | .dropLaunch k =>
    match s.take k .dropped with
    | some (_, s) => { s with replies := (call, .done) :: s.replies }
    | none => s
  | .memcpyH2d src dst opts => s.simple call (memcpyH2dOpts src dst opts)
  | .memcpyD2h src len opts => s.perform call (memcpyD2hOpts src len opts) fun s d => (s, .bytes d)
  | .fill region value => s.simple call (fillRegion region value)
  | .allocPinned len =>
    s.perform call (EtSoc.allocPinned len) fun s b => ({ s with pinned := s.pinned ++ [b] }, .done)
  | .writePinned k data =>
    match s.pinned[k]? with
    | some buffer => s.simple call (writePinned buffer data)
    | none => s
  | .memcpyH2dPinned k dst opts =>
    s.transferPinned call k (memcpyH2dPinnedOpts · dst opts) fun _ _ => .done
  | .memcpyD2hPinned src k opts =>
    s.transferPinned call k (memcpyD2hPinnedOpts src · opts) fun s b => .bytes (s.pinnedBytes b)
  | .dropPinned k =>
    match s.pinned[k]? with
    | some buffer =>
      { s with pinned := s.pinned.set k { buffer with host := none, len := 0 } }.simple call
        (unmap buffer.host.toList)
    | none => s
  | .resetShires shireMask => s.simple call (EtSoc.resetShires shireMask)
  | .setStagingCapacity bytes => s.simple call (EtSoc.setStagingCapacity bytes)
  | .setDefaultLaunchTimeout timeout =>
    s.simple call (modifyDev fun d => { d with defaultTimeout := timeout })
  | .idle => s.simple call tick

def run (s : Session) (calls : List Call) : Session := calls.foldl step s

end Session

end EtSoc

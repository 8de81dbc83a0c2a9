import EtSoc.Library.Bytes

/-! # Device-ops messages

The commands the host builds and the fields it reads from the responses. A DMA node
names its host memory by buffer and offset, in place of a virtual address. -/

namespace EtSoc

open Bytes

abbrev Tag := UInt16

/-! ## Constants of the device API -/

namespace CmdFlags
/-- Drain all prior commands before this one executes. -/
def barrier : UInt16 := 1
def computeKernelTrace : UInt16 := 2
def flushL3 : UInt16 := 16
def userStackCfg : UInt16 := 64
end CmdFlags

namespace DescFlags
def dma : UInt8 := 1
def highPriority : UInt8 := 4
end DescFlags

namespace MsgId
def kernelLaunchCmd : UInt16 := 521
def dmaReadlistCmd : UInt16 := 525
def dmaWritelistCmd : UInt16 := 527
def cmResetCmd : UInt16 := 533
end MsgId

def cmnHeaderSize : ℕ := 8
def dmaNodeSize : ℕ := 32
def kernelLaunchFixed : ℕ := 32

def kernelCompleted : UInt32 := 0
def dmaResponseComplete : UInt32 := 0
def cmResetSuccess : UInt32 := 0

/-! ## Host buffers -/

/-- Which of its uses a host buffer was mapped for. -/
inductive Purpose where
  | staging
  | arguments
  | pinned
deriving DecidableEq, Repr

/-- The identity of a mapping; no two mappings of a run have the same. -/
structure BufId where
  purpose : Purpose
  serial : ℕ
deriving DecidableEq, Repr

structure HostPtr where
  buf : BufId
  offset : ℕ
deriving DecidableEq, Repr

/-! ## Commands -/

structure CmnHeader where
  size : UInt16
  tagId : Tag
  msgId : UInt16
  flags : UInt16
deriving DecidableEq, Repr

/-- One transfer of a DMA list, in either direction. -/
structure DmaNode where
  hostVirtAddr : HostPtr
  hostPhyAddr : ℕ
  devicePhyAddr : ℕ
  size : ℕ
deriving DecidableEq, Repr

structure KernelLaunch where
  codeStartAddress : ℕ
  pointerToArgs : ℕ
  exceptionBuffer : ℕ
  shireMask : ℕ
  payload : List UInt8
deriving DecidableEq, Repr

inductive Body where
  | kernelLaunch (launch : KernelLaunch)
  /-- Device to host. -/
  | dmaReadlist (nodes : List DmaNode)
  /-- Host to device. -/
  | dmaWritelist (nodes : List DmaNode)
  | cmReset (shireMask : ℕ)
deriving DecidableEq, Repr

structure Command where
  header : CmnHeader
  body : Body
deriving DecidableEq, Repr

namespace Command

def tagId (cmd : Command) : Tag := cmd.header.tagId

def nodes (cmd : Command) : List DmaNode :=
  match cmd.body with
  | .dmaReadlist nodes | .dmaWritelist nodes => nodes
  | .kernelLaunch _ | .cmReset _ => []

def isWrite (cmd : Command) : Bool :=
  match cmd.body with
  | .dmaWritelist _ => true
  | _ => false

def launch? (cmd : Command) : Option KernelLaunch :=
  match cmd.body with
  | .kernelLaunch launch => some launch
  | _ => none

def barrier (cmd : Command) : Bool := cmd.header.flags &&& CmdFlags.barrier != 0

end Command

/-- A command of `total` bytes fits the 16-bit size field, or there is nothing to build. -/
def commandSize (total : ℕ) : Option UInt16 :=
  if total < 65536 then some (UInt16.ofNat total) else none

def command (total : ℕ) (tagId : Tag) (msgId flags : UInt16) (body : Body) : Option Command :=
  (commandSize total).map fun size => ⟨⟨size, tagId, msgId, flags⟩, body⟩

theorem command_of_lt {total : ℕ} (h : total < 65536) (tagId : Tag) (msgId flags : UInt16)
    (body : Body) :
    command total tagId msgId flags body = some ⟨⟨UInt16.ofNat total, tagId, msgId, flags⟩, body⟩ := by
  rw [command, commandSize, if_pos h]
  rfl

def buildKernelLaunch (tagId : Tag) (flags : UInt16)
    (codeStartAddress pointerToArgs exceptionBuffer shireMask : ℕ) (payload : List UInt8) :
    Option Command :=
  command (cmnHeaderSize + (kernelLaunchFixed + payload.length)) tagId MsgId.kernelLaunchCmd flags
    (.kernelLaunch ⟨codeStartAddress, pointerToArgs, exceptionBuffer, shireMask, payload⟩)

def buildDmaReadlist (tagId : Tag) (flags : UInt16) (nodes : List DmaNode) : Option Command :=
  command (cmnHeaderSize + dmaNodeSize * nodes.length) tagId MsgId.dmaReadlistCmd flags
    (.dmaReadlist nodes)

def buildDmaWritelist (tagId : Tag) (flags : UInt16) (nodes : List DmaNode) : Option Command :=
  command (cmnHeaderSize + dmaNodeSize * nodes.length) tagId MsgId.dmaWritelistCmd flags
    (.dmaWritelist nodes)

def buildCmReset (tagId : Tag) (shireMask : ℕ) : Option Command :=
  command (cmnHeaderSize + 8) tagId MsgId.cmResetCmd CmdFlags.barrier (.cmReset shireMask)

/-! ## Launch payloads -/

structure TraceInitInfo where
  buffer : ℕ
  bufferSize : ℕ
  threshold : ℕ
  shireMask : ℕ
  threadMask : ℕ
  eventMask : ℕ
  filterMask : ℕ
deriving DecidableEq, Repr

def TraceInitInfo.toBytes (t : TraceInitInfo) : List UInt8 :=
  leBytes 8 t.buffer ++ leBytes 4 t.bufferSize ++ leBytes 4 t.threshold ++ leBytes 8 t.shireMask
    ++ leBytes 8 t.threadMask ++ leBytes 4 t.eventMask ++ leBytes 4 t.filterMask

structure UserStackCfg where
  stackBaseOffset : ℕ
  stackSize : ℕ
deriving DecidableEq, Repr

def UserStackCfg.toBytes (c : UserStackCfg) : List UInt8 :=
  leBytes 4 c.stackBaseOffset ++ leBytes 4 c.stackSize

/-! ## Responses -/

structure ResponseHeader where
  size : UInt16
  tagId : Tag
  msgId : UInt16
  flags : UInt16
deriving DecidableEq, Repr

def ResponseHeader.parse (bytes : List UInt8) : Option ResponseHeader :=
  match bytes with
  | b0 :: b1 :: b2 :: b3 :: b4 :: b5 :: b6 :: b7 :: _ =>
    some ⟨UInt16.ofNat (leNat [b0, b1]), UInt16.ofNat (leNat [b2, b3]),
      UInt16.ofNat (leNat [b4, b5]), UInt16.ofNat (leNat [b6, b7])⟩
  | _ => none

theorem ResponseHeader.parse_isSome {bytes : List UInt8} (h : 8 ≤ bytes.length) :
    (ResponseHeader.parse bytes).isSome := by
  match bytes, h with
  | _ :: _ :: _ :: _ :: _ :: _ :: _ :: _ :: _, _ => rfl

def rspStatusOffset : ℕ := 32
def cmResetRspStatusOffset : ℕ := 8
def rspKernelErrorPtrOffset : ℕ := rspStatusOffset + 8

def wordAt (bytes : List UInt8) (offset : ℕ) : Option UInt32 :=
  (slice? bytes offset 4).map fun word => UInt32.ofNat (leNat word)

/-- The status word of a kernel-launch or DMA-list response. -/
def responseStatus (bytes : List UInt8) : Option UInt32 := wordAt bytes rspStatusOffset

/-- The status word of a compute-minion reset response, which carries no timing counters. -/
def cmResetResponseStatus (bytes : List UInt8) : Option UInt32 :=
  wordAt bytes cmResetRspStatusOffset

structure KernelErrorPtr where
  exceptionBuffer : ℕ
  traceBuffer : ℕ
  shireMask : ℕ
deriving DecidableEq, Repr

def parseKernelErrorPtr (bytes : List UInt8) : Option KernelErrorPtr := do
  let exceptionBuffer ← slice? bytes rspKernelErrorPtrOffset 8
  let traceBuffer ← slice? bytes (rspKernelErrorPtrOffset + 8) 8
  let shireMask ← slice? bytes (rspKernelErrorPtrOffset + 16) 8
  return ⟨leNat exceptionBuffer, leNat traceBuffer, leNat shireMask⟩

def kernelLaunchStatusName (status : UInt32) : String :=
  match status.toNat with
  | 0 => "KERNEL_COMPLETED"
  | 1 => "UNEXPECTED_ERROR"
  | 2 => "EXCEPTION"
  | 3 => "SHIRES_NOT_READY"
  | 4 => "HOST_ABORTED"
  | 5 => "INVALID_ADDRESS"
  | 6 => "TIMEOUT_HANG"
  | 7 => "INVALID_ARGS_PAYLOAD_SIZE"
  | 8 => "CM_IFACE_MULTICAST_FAILED"
  | 9 => "CM_IFACE_UNICAST_FAILED"
  | 10 => "SP_IFACE_RESET_FAILED"
  | 11 => "CW_MINIONS_BOOT_FAILED"
  | 12 => "INVALID_ARGS_INVALID_SHIRE_MASK"
  | 13 => "USER_ERROR"
  | 14 => "INVALID_ARGS_INVALID_STACK_CFG"
  | _ => "UNKNOWN"

structure LaunchTiming where
  startTs : ℕ
  executeDur : ℕ
  waitDur : ℕ
deriving DecidableEq, Repr

def parseLaunchTiming (bytes : List UInt8) : LaunchTiming :=
  let rd offset := ((slice? bytes offset 8).map leNat).getD 0
  ⟨rd 8, rd 16, rd 24⟩

end EtSoc

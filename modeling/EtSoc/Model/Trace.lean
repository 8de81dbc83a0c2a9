import EtSoc.Library.Bytes
import EtSoc.Library.Utf8

/-! # The trace decoder

A pure decoder of the layout of trace buffers. An access out of bounds and an overflow
panic, which here is `none`. -/

namespace EtSoc.Trace

open Bytes

def magicHeader : UInt32 := 1985229328
def versionMajor : UInt16 := 0
def versionMinor : UInt16 := 6

def stdHeaderSize : ℕ := 64
def entryHeaderSize : ℕ := 16
def sizeHeaderSize : ℕ := 4

inductive TraceError where
  | tooShort
  | badMagic (magic : UInt32)
  | incompatibleVersion (major minor : UInt16)
deriving DecidableEq, Repr

structure Header where
  version : UInt16 × UInt16 × UInt16
  bufferType : UInt16
  dataSize : UInt32
  subBufferSize : UInt32
  subBufferCount : UInt16
deriving DecidableEq, Repr

structure TraceBuffer where
  data : List UInt8
  header : Header
deriving DecidableEq, Repr

/-! ## Readers -/

def rdU16 (b : List UInt8) (off : ℕ) : Option UInt16 :=
  (slice? b off 2).map fun word => UInt16.ofNat (leNat word)

def rdU32 (b : List UInt8) (off : ℕ) : Option UInt32 :=
  (slice? b off 4).map fun word => UInt32.ofNat (leNat word)

def rdU64 (b : List UInt8) (off : ℕ) : Option UInt64 :=
  (slice? b off 8).map fun word => UInt64.ofNat (leNat word)

/-- Addition of lengths and offsets. -/
def add (a b : ℕ) : Option ℕ := if a + b < 2 ^ 64 then some (a + b) else none

def saturatingAdd (a b : ℕ) : ℕ := min (a + b) (2 ^ 64 - 1)

/-! ## The buffer -/

/-- Validate the standard header. -/
def TraceBuffer.parse (data : List UInt8) : Option (Except TraceError TraceBuffer) :=
  if data.length < stdHeaderSize then
    some (.error .tooShort)
  else do
    let magic ← rdU32 data 0
    if magic ≠ magicHeader then
      some (.error (.badMagic magic))
    else do
      let major ← rdU16 data 4
      let minor ← rdU16 data 6
      let patch ← rdU16 data 8
      if major ≠ versionMajor ∨ minor > versionMinor then
        some (.error (.incompatibleVersion major minor))
      else do
        let bufferType ← rdU16 data 10
        let dataSize ← rdU32 data 12
        let subBufferSize ← rdU32 data 16
        let subBufferCount ← rdU16 data 20
        some (.ok ⟨data, ⟨(major, minor, patch), bufferType, dataSize, subBufferSize,
          subBufferCount⟩⟩)

/-- The bytes `[start, stop)` of a partition, from its first entry on. -/
structure Segment where
  start : ℕ
  stop : ℕ
  /-- Ghost: which partition it is. -/
  partition : ℕ
deriving DecidableEq, Repr

/-- The segments of the partitions in `indices`; the loop ends at the first one whose size
header is not in the buffer. -/
def subSegments (data : List UInt8) (stride : ℕ) : List ℕ → Option (List Segment)
  | [] => some []
  | i :: indices =>
    if 2 ^ 64 ≤ i * stride then
      some []
    else if data.length < saturatingAdd (i * stride) sizeHeaderSize then
      some []
    else do
      let subSize ← rdU32 data (i * stride)
      if sizeHeaderSize < subSize.toNat then do
        let start ← add (i * stride) sizeHeaderSize
        let rest ← subSegments data stride indices
        some (⟨start, min (saturatingAdd (i * stride) subSize.toNat) data.length, i⟩ :: rest)
      else
        subSegments data stride indices

/-- The segments of all populated partitions. -/
def TraceBuffer.segments (tb : TraceBuffer) : Option (List Segment) := do
  let dataEnd := min tb.header.dataSize.toNat tb.data.length
  let first := if stdHeaderSize < dataEnd then [⟨stdHeaderSize, dataEnd, 0⟩] else []
  let count := tb.header.subBufferCount.toNat
  let stride := tb.header.subBufferSize.toNat
  if 1 < count ∧ sizeHeaderSize ≤ stride then do
    let rest ← subSegments tb.data stride (List.range' 1 (count - 1))
    some (first ++ rest)
  else
    some first

/-! ## Iteration -/

structure Entries where
  data : List UInt8
  segments : List Segment
  segment : ℕ
  offset : ℕ
  started : Bool
deriving DecidableEq, Repr

def TraceBuffer.entries (tb : TraceBuffer) : Option Entries := do
  let segments ← tb.segments
  some ⟨tb.data, segments, 0, 0, false⟩

structure Entry where
  cycle : UInt64
  hartId : UInt16
  rawType : UInt16
  payload : List UInt8
deriving DecidableEq, Repr

/-- Abandon the current partition. -/
def Entries.skip (it : Entries) : Entries := { it with segment := it.segment + 1, started := false }

/-- The loop of `next`; each round but the last skips a segment, of which there are fewer
than `n`. -/
def nextLoop : ℕ → Entries → Option (Option (Entry × Entries))
  | 0, _ => none
  | n + 1, it =>
    match it.segments[it.segment]? with
    | none => some none
    | some seg => do
      let off := if it.started then it.offset else seg.start
      let payloadStart ← add off entryHeaderSize
      if payloadStart > seg.stop then
        nextLoop n it.skip
      else do
        let cycle ← rdU64 it.data off
        let payloadSize ← rdU32 it.data (off + 8)
        let hartId ← rdU16 it.data (off + 12)
        let rawType ← rdU16 it.data (off + 14)
        let payloadEnd := saturatingAdd payloadStart payloadSize.toNat
        -- A payload past the end marks corruption of this partition only.
        if payloadEnd > seg.stop ∨ payloadEnd > it.data.length then
          nextLoop n it.skip
        else do
          let payload ← slice? it.data payloadStart (payloadEnd - payloadStart)
          some (some (⟨cycle, hartId, rawType, payload⟩,
            { it with offset := payloadEnd, started := true }))

def Entries.next (it : Entries) : Option (Option (Entry × Entries)) :=
  nextLoop (it.segments.length + 1) it

/-! ## Entries -/

inductive TraceType where
  | string
  | pmcCounter
  | pmcCountersCompute
  | pmcCountersMemory
  | pmcCountersSc
  | pmcCountersMs
  | valueU64
  | valueU32
  | valueU16
  | valueU8
  | valueFloat
  | memory
  | exception
  | cmdStatus
  | powerStatus
  | customEvent
  | userProfileEvent
  | unknown (raw : UInt16)
deriving DecidableEq, Repr

def TraceType.fromRaw (raw : UInt16) : TraceType :=
  match raw.toNat with
  | 0 => .string
  | 1 => .pmcCounter
  | 2 => .pmcCountersCompute
  | 3 => .pmcCountersMemory
  | 4 => .pmcCountersSc
  | 5 => .pmcCountersMs
  | 6 => .valueU64
  | 7 => .valueU32
  | 8 => .valueU16
  | 9 => .valueU8
  | 10 => .valueFloat
  | 11 => .memory
  | 12 => .exception
  | 13 => .cmdStatus
  | 14 => .powerStatus
  | 15 => .customEvent
  | 16 => .userProfileEvent
  | _ => .unknown raw

def Entry.traceType (e : Entry) : TraceType := .fromRaw e.rawType

/-- A payload as a NUL-terminated string, lossily decoded. -/
def decodeCstr (payload : List UInt8) : String :=
  Utf8.fromUtf8Lossy (payload.take (payload.findIdx (· == 0)))

/-- The text of a string entry. -/
def Entry.asStr (e : Entry) : Option String :=
  if e.traceType = .string then some (decodeCstr e.payload) else none

end EtSoc.Trace

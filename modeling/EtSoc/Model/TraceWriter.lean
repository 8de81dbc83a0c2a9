import EtSoc.Library.Bytes
import EtSoc.Library.ByteMemory

/-! # The trace writer

What a kernel does to write a line into the trace buffer of its hart. Addresses wrap, as in
a release build. -/

namespace EtSoc.TraceWriter

open Bytes

def entryHeaderSize : ℕ := 16
def traceStringMax : ℕ := 512
def traceTypeString : UInt16 := 0

/-- The control block of a hart, which the firmware has set up. -/
structure ControlBlock where
  basePerHart : UInt64
  sizePerHart : UInt32
  offsetPerHart : UInt32

structure TraceMemory where
  /-- By the index of the hart; they are apart from the trace buffers. -/
  controlBlocks : ℕ → ControlBlock
  bytes : UInt64 → UInt8
  /-- Ghost: the addresses of all bytes stored so far. -/
  stored : List UInt64

def TraceMemory.store (s : TraceMemory) (addr : UInt64) (bs : List UInt8) : TraceMemory :=
  { s with
    bytes := ByteMemory.write s.bytes addr bs
    stored := s.stored ++ ByteMemory.span addr bs.length }

def TraceMemory.setOffset (s : TraceMemory) (cb : ℕ) (offset : UInt32) : TraceMemory :=
  { s with
    controlBlocks := Function.update s.controlBlocks cb
      { s.controlBlocks cb with offsetPerHart := offset } }

def cbIndex (hart : UInt32) : ℕ := if hart.toNat < 2048 then hart.toNat else hart.toNat - 32

def align8 (n : ℕ) : ℕ := (n + 7) &&& (2 ^ 64 - 1 - 7)

/-- Byte `i` of a payload; the last one is always NUL. -/
def payloadByte (text : List UInt8) (strLen i : ℕ) : UInt8 :=
  if i < text.length ∧ i + 1 < strLen then text.getD i 0 else 0

/-- Write `text` as a string entry of hart `hid` at time `timestamp`. An entry that does not
fit is dropped. -/
def traceStr (hid : UInt32) (timestamp : UInt64) (text : List UInt8) (s : TraceMemory) :
    TraceMemory :=
  let strLen := min (align8 (text.length + 1)) traceStringMax
  let entryLen := entryHeaderSize + strLen
  let cb := s.controlBlocks (cbIndex hid)
  if cb.basePerHart = 0 ∨
      min (cb.offsetPerHart.toNat + entryLen) (2 ^ 64 - 1) > cb.sizePerHart.toNat then
    s
  else
    let head := cb.basePerHart + UInt64.ofNat cb.offsetPerHart.toNat
    let s := s.store head (leBytes 8 timestamp.toNat)
    let s := s.store (head + 8) (leBytes 4 strLen)
    let s := s.store (head + 12) (leBytes 2 hid.toUInt16.toNat)
    let s := s.store (head + 14) (leBytes 2 traceTypeString.toNat)
    let s := (List.range strLen).foldl (fun s i =>
      s.store (head + UInt64.ofNat entryHeaderSize + UInt64.ofNat i) [payloadByte text strLen i]) s
    s.setOffset (cbIndex hid) (cb.offsetPerHart + UInt32.ofNat entryLen)

/-- A call of the writer. -/
structure Call where
  timestamp : UInt64
  text : List UInt8

/-- The calls of a hart, one after another. -/
def traceStrs (hid : UInt32) (calls : List Call) (s : TraceMemory) : TraceMemory :=
  calls.foldl (fun s call => traceStr hid call.timestamp call.text s) s

end EtSoc.TraceWriter

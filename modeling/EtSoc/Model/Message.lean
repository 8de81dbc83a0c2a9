import EtSoc.Library.Bytes

/-! # Trace messages

The stack buffer in which a kernel composes a message. An index out of bounds is `none`. -/

namespace EtSoc.Message

structure MsgBuf where
  buf : List UInt8
  len : ℕ
deriving DecidableEq, Repr

def MsgBuf.new : MsgBuf := ⟨List.replicate 192 0, 0⟩

/-- Store one byte behind the text. -/
def MsgBuf.push (m : MsgBuf) (b : UInt8) : Option MsgBuf :=
  if m.len < m.buf.length then some ⟨m.buf.set m.len b, m.len + 1⟩ else none

/-- Append bytes, as long as there is room. -/
def MsgBuf.str (m : MsgBuf) : List UInt8 → Option MsgBuf
  | [] => some m
  | b :: bs =>
    if m.len < m.buf.length then do
      let m ← m.push b
      m.str bs
    else
      some m

/-- The loop over the digits of `v`; `tmp` holds those stored, last one first, and `room` is
how many more it can take. -/
def digits : ℕ → UInt64 → List UInt8 → Option (List UInt8)
  | 0, _, _ => none
  | room + 1, v, tmp =>
    let tmp := (48 + (v % 10).toUInt8) :: tmp
    if v / 10 = 0 then some tmp else digits room (v / 10) tmp

/-- Append a decimal integer. -/
def MsgBuf.u64 (m : MsgBuf) (v : UInt64) : Option MsgBuf := do
  let tmp ← digits 20 v []
  m.str tmp

def MsgBuf.asSlice (m : MsgBuf) : Option (List UInt8) :=
  if m.len ≤ m.buf.length then some (m.buf.take m.len) else none

inductive Call where
  | str (s : List UInt8)
  | u64 (v : UInt64)
deriving DecidableEq, Repr

def MsgBuf.call (m : MsgBuf) : Call → Option MsgBuf
  | .str s => m.str s
  | .u64 v => m.u64 v

/-- A sequence of calls, starting from an empty buffer. -/
def compose (calls : List Call) : Option MsgBuf := calls.foldlM MsgBuf.call .new

end EtSoc.Message

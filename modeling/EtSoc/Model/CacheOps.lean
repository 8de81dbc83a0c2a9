import EtSoc.Library.Bytes

/-! # Cache operations

The CSR writes that a kernel issues for a range of addresses. -/

namespace EtSoc.CacheOps

def csrEvictVa : UInt16 := 0x89F
def csrFlushVa : UInt16 := 0x8BF

inductive CacheDest where
  | l1
  | l2
  | l3
  | mem
deriving DecidableEq, Repr

def CacheDest.toU64 : CacheDest → UInt64
  | .l1 => 0
  | .l2 => 1
  | .l3 => 2
  | .mem => 3

/-- A CSR write; the hardware reads register x31 at the moment of the write. -/
structure CsrWrite where
  csr : UInt16
  value : UInt64
  x31 : UInt64
deriving DecidableEq, Repr

def csrEnc (dst : CacheDest) (lineAddr hwCount : UInt64) : UInt64 :=
  (dst.toU64 <<< 58) ||| (lineAddr &&& 0x0000FFFFFFFFFFC0) ||| hwCount

def evictVaHw (dst : CacheDest) (lineAddr hwCount : UInt64) : CsrWrite :=
  ⟨csrEvictVa, csrEnc dst lineAddr hwCount, 64⟩

def flushVaHw (dst : CacheDest) (lineAddr hwCount : UInt64) : CsrWrite :=
  ⟨csrFlushVa, csrEnc dst lineAddr hwCount, 64⟩

/-- Number of cache lines covering `len` bytes from `addr` on. -/
def lineCount (addr len : UInt64) : UInt64 :=
  if len = 0 then
    0
  else
    let lineStart := addr &&& ~~~63
    let lineEnd := (addr + len + 63) &&& ~~~63
    (lineEnd - lineStart) >>> 6

/-- The loop of the range operations over `rem` lines from `line` on, in batches of at most
16; `n` bounds its rounds. -/
def batches (hw : UInt64 → UInt64 → CsrWrite) : ℕ → UInt64 → UInt64 → List CsrWrite
  | 0, _, _ => []
  | n + 1, line, rem =>
    if 0 < rem then
      let batch := min rem 16
      hw line (batch - 1) :: batches hw n (line + batch * 64) (rem - batch)
    else
      []

def doEvict (dst : CacheDest) (addr len : UInt64) : List CsrWrite :=
  let n := lineCount addr len
  if n = 0 then [] else batches (evictVaHw dst) n.toNat (addr &&& ~~~63) n

def doFlush (dst : CacheDest) (addr len : UInt64) : List CsrWrite :=
  let n := lineCount addr len
  if n = 0 then [] else batches (flushVaHw dst) n.toNat (addr &&& ~~~63) n

/-! ## What the hardware makes of a write -/

namespace CsrWrite

/-- Bits 59 and 58. -/
def dst (w : CsrWrite) : ℕ := w.value.toNat / 2 ^ 58 % 4

/-- Bits 47 to 6, in their place. -/
def va (w : CsrWrite) : ℕ := w.value.toNat / 64 % 2 ^ 42 * 64

/-- Bits 3 to 0. -/
def hwCount (w : CsrWrite) : ℕ := w.value.toNat % 16

/-- The distance of the lines, in the upper bits of x31. -/
def stride (w : CsrWrite) : ℕ := w.x31.toNat / 64 * 64

/-- The numbers of the lines named, each a line of 64 bytes. -/
def lines (w : CsrWrite) : List ℕ :=
  (List.range (w.hwCount + 1)).map fun i => (w.va + i * w.stride) / 64

end CsrWrite

/-- The lines of a range operation, in the order of its writes. -/
def linesOf (writes : List CsrWrite) : List ℕ := writes.flatMap CsrWrite.lines

end EtSoc.CacheOps

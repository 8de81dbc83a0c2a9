import EtSoc.Library.ByteMemory
import EtSoc.Model.Buffers
import EtSoc.Model.CacheOps
import EtSoc.Model.Message

/-! # The parallel reduction

The kernel that sums an array on all harts of a launch. A panic of the kernel is `none`. -/

namespace EtSoc.Reduce

open Bytes

/-- A hart's view of a launch. -/
structure Grid where
  hart : UInt32
  nHarts : UInt32

namespace Grid

def active (g : Grid) : Bool := g.hart < g.nHarts

/-- The elements of this hart, of `n`. -/
def range (g : Grid) (n : ℕ) : ℕ × ℕ :=
  if ¬g.active then
    (n, n)
  else
    let h := g.hart.toNat
    let p := max g.nHarts.toNat 1
    let base := n / p
    let rem := n % p
    let start := h * base + min h rem
    let len := base + if h < rem then 1 else 0
    (start, start + len)

def mySlice {α : Type} (g : Grid) (data : List α) : Option (List α) :=
  let (start, stop) := g.range data.length
  if start ≤ stop ∧ stop ≤ data.length then some ((data.drop start).take (stop - start)) else none

/-- The address of this hart's output cell. -/
def outputCell (g : Grid) (base : UInt64) : Option UInt64 :=
  if g.active then some (base + g.hart.toUInt64 * UInt64.ofNat cacheLine) else none

end Grid

structure ReduceArgs where
  input : UInt64
  out : UInt64
  n : UInt32
  nHarts : UInt32
deriving DecidableEq, Repr

structure KernelState where
  bytes : UInt64 → UInt8
  /-- The messages written to the trace buffers, which are apart from the arrays. -/
  messages : List (List UInt8)
  /-- Ghost: which hart stored to which address. -/
  stored : List (UInt32 × UInt64)
  /-- Ghost: the cache operations of each hart. -/
  flushed : List (UInt32 × CacheOps.CsrWrite)

def KernelState.store (s : KernelState) (hart : UInt32) (addr : UInt64) (bs : List UInt8) :
    KernelState :=
  { s with
    bytes := ByteMemory.write s.bytes addr bs
    stored := s.stored ++ (ByteMemory.span addr bs.length).map fun a => (hart, a) }

/-- The `n` words at `addr`. -/
def deviceSlice (bytes : UInt64 → UInt8) (addr : UInt64) (n : ℕ) : List UInt32 :=
  (List.range n).map fun i =>
    UInt32.ofNat (leNat ((ByteMemory.span (addr + UInt64.ofNat (4 * i)) 4).map bytes))

/-- The sum of words, which overflows from `2 ^ 64` on. -/
def sumU64 (data : List UInt32) : Option UInt64 :=
  data.foldlM (fun acc x =>
    if acc.toNat + x.toNat < 2 ^ 64 then some (acc + x.toUInt64) else none) 0

/-- What the first hart reports. -/
def report (args : ReduceArgs) (partialSum : UInt64) : Option (List UInt8) := do
  let m ← Message.compose [
    .str "reduce: n=".toUTF8.toList, .u64 args.n.toUInt64,
    .str " harts=".toUTF8.toList, .u64 args.nHarts.toUInt64,
    .str " hart0_partial=".toUTF8.toList, .u64 partialSum]
  m.asSlice

/-- The kernel on one hart. -/
def entryPoint (args : ReduceArgs) (hart : UInt32) (s : KernelState) : Option KernelState :=
  let grid : Grid := ⟨hart, args.nHarts⟩
  if ¬grid.active then
    some s
  else do
    let input := deviceSlice s.bytes args.input args.n.toNat
    let cell ← grid.outputCell args.out
    let slice ← grid.mySlice input
    let partialSum ← sumU64 slice
    let s := s.store hart cell (leBytes 8 partialSum.toNat)
    let s := { s with flushed :=
      s.flushed ++ (CacheOps.doFlush .mem cell 8).map fun w => (hart, w) }
    if hart = 0 then do
      let message ← report args partialSum
      some { s with messages := s.messages ++ [message] }
    else
      some s

/-- The kernel on several harts, one after another. -/
def run (args : ReduceArgs) (harts : List UInt32) (s : KernelState) : Option KernelState :=
  harts.foldlM (fun s hart => entryPoint args hart s) s

end EtSoc.Reduce

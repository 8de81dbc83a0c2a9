import EtSoc.Model.Dma
import EtSoc.Model.Elf

/-! # Typed buffers

Allocation by element count, uploads, and fills. -/

namespace EtSoc

open Program

def tensorAlign : ℕ := 64

def limitUnless (p : Prop) [Decidable p] (message : String) : M Unit :=
  if p then pure () else Prog.throw (.limit message)

/-- Size in bytes of `n` values of `elemSize` bytes each. -/
def byteLenOf (elemSize n : ℕ) : M ℕ := do
  limitUnless (n * elemSize < 2 ^ 64)
    (toString n ++ " elements of " ++ toString elemSize ++ " bytes overflow usize")
  pure (n * elemSize)

def allocArray (elemSize n : ℕ) : M DeviceRegion := do
  let size ← byteLenOf elemSize n
  alloc size

/-- Allocate an array of `n` values and write `data`, their bytes, into it. -/
def upload (elemSize n : ℕ) (data : List UInt8) : M DeviceRegion := do
  let region ← allocArray elemSize n
  memcpyH2d data region.addr
  pure region

/-- Allocate an array with one element in each cache line. -/
def allocPadded (elemSize n : ℕ) : M DeviceRegion :=
  if cacheLine < elemSize then
    Prog.panic "padded element exceeds one cache line"
  else do
    let size ← byteLenOf cacheLine n
    alloc size

/-- One value of `elemSize` bytes out of each line. -/
def extractPadded (elemSize len : ℕ) (raw : List UInt8) : List (List UInt8) :=
  (List.range len).map fun i => (raw.drop (i * cacheLine)).take elemSize

/-- Download an array with one element in each cache line. -/
def downloadPadded (elemSize : ℕ) (region : DeviceRegion) (len : ℕ) : M (List (List UInt8)) := do
  let raw ← memcpyD2h region.addr (len * cacheLine)
  pure (extractPadded elemSize len raw)

/-- The address and the row stride of a matrix of single-precision numbers, its rows
padded to the tensor alignment. -/
def allocTensorMatrix (rows cols : ℕ) : M (ℕ × ℕ) := do
  limitUnless (rows ≠ 0 ∧ cols ≠ 0) "sGEMM: M, N, and K must all be >= 1"
  let rowBytes := (cols * 4 + tensorAlign - 1) / tensorAlign * tensorAlign
  limitUnless (rowBytes < 2 ^ 32)
    ("sGEMM: a row of " ++ toString cols ++ " f32 values exceeds the u32 stride range")
  limitUnless (rows * rowBytes < 2 ^ 64)
    ("sGEMM: " ++ toString rows ++ " x " ++ toString cols ++ " matrix size overflows")
  let region ← alloc (rows * rowBytes)
  limitUnless (region.addr % tensorAlign = 0)
    ("device allocator returned address " ++ Elf.hex region.addr
      ++ " with insufficient alignment for tensor operations (need "
      ++ toString tensorAlign ++ " bytes)")
  pure (region.addr, rowBytes)

/-- Fill every byte of `region` with `value`. Only the first two chunks are written to the
staging buffers, which hold the pattern from then on. -/
def fillRegion (region : DeviceRegion) (value : UInt8) : M Unit :=
  h2dStaged region.size region.addr .default fun calls staged _ i =>
    if calls < 2 then value else staged i

end EtSoc

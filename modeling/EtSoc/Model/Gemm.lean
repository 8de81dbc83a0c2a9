import EtSoc.Model.Buffers

/-! # Matrix multiplication

The host's checks of a single-precision matrix product, and the tensor instructions that
the kernel issues for it. -/

namespace EtSoc.Gemm

def gemmTileM : ℕ := 16
def gemmTileK : ℕ := 16
def gemmTileN : ℕ := 16
def minionsPerShire : ℕ := 32

/-- What the kernel is launched with; `alpha` and `beta` are the bits of two floats. -/
structure GemmArgs where
  a : UInt64
  b : UInt64
  c : UInt64
  nShires : UInt64
  m : UInt32
  n : UInt32
  k : UInt32
  lda : UInt32
  ldb : UInt32
  ldc : UInt32
  alpha : UInt32
  beta : UInt32
deriving DecidableEq, Repr

/-! ## The host -/

section
/- How a float is displayed. -/
variable (showF32 : UInt32 → String)

inductive GemmError where
  | unalignedPointer (matrix : String) (addr : UInt64)
  | unalignedStride (matrix : String) (lda : UInt32)
  | zeroDimension
  | unsupportedScaling (alpha beta : UInt32)

def GemmError.intoLimit : GemmError → Error
  | .unalignedPointer matrix addr =>
    .limit ("sGEMM: matrix " ++ matrix ++ " pointer " ++ Elf.hex addr.toNat ++ " is not "
      ++ toString tensorAlign ++ "-byte aligned")
  | .unalignedStride matrix lda =>
    .limit ("sGEMM: leading dimension of " ++ matrix ++ " (" ++ toString lda
      ++ " bytes) is not a multiple of " ++ toString tensorAlign)
  | .zeroDimension => .limit "sGEMM: M, N, and K must all be >= 1"
  | .unsupportedScaling alpha beta =>
    .limit ("sGEMM: alpha=" ++ showF32 alpha ++ ", beta=" ++ showF32 beta
      ++ " not supported in v0.1 (only alpha=1.0, beta=0.0)")

/-- Whether the bits are those of 1.0. -/
def isOne (bits : UInt32) : Bool := bits == 0x3F800000

/-- Whether the bits are those of a zero of either sign. -/
def isZero (bits : UInt32) : Bool := bits &&& 0x7FFFFFFF == 0

def rejectIf (p : Prop) [Decidable p] (e : Error) : Except Error Unit :=
  if p then .error e else .ok ()

def checkPointer (matrix : String) (addr : UInt64) : Except Error Unit :=
  rejectIf (addr.toNat % tensorAlign ≠ 0)
    (GemmError.intoLimit showF32 (.unalignedPointer matrix addr))

def checkStride (matrix : String) (stride : UInt32) : Except Error Unit :=
  rejectIf (stride.toNat % tensorAlign ≠ 0)
    (GemmError.intoLimit showF32 (.unalignedStride matrix stride))

/-- Rows must not overlap, and the last byte must be addressable. -/
def checkExtent (matrix : String) (rows cols : UInt32) (base : UInt64) (stride : UInt32) :
    Except Error Unit :=
  let rowBytes := cols.toNat * 4
  let extent := (rows.toNat - 1) * stride.toNat + rowBytes
  do
    rejectIf (stride.toNat < rowBytes)
      (.limit ("sGEMM: stride of " ++ matrix ++ " (" ++ toString stride
        ++ " bytes) is shorter than one row (" ++ toString cols ++ " f32 values = "
        ++ toString rowBytes ++ " bytes)"))
    rejectIf (2 ^ 64 ≤ base.toNat + extent)
      (.limit ("sGEMM: matrix " ++ matrix ++ " at " ++ Elf.hex base.toNat ++ " spanning "
        ++ toString extent ++ " bytes overflows the address space"))

def shireMask (nShires : UInt32) : UInt64 := ((1 : UInt64) <<< nShires.toUInt64) - 1

/-- The checks of `sgemm` on a device that provides the shires `available`, and the
arguments it then launches the kernel with. -/
def sgemm (m n k alpha : UInt32) (a : UInt64) (lda : UInt32) (b : UInt64) (ldb beta : UInt32)
    (c : UInt64) (ldc nShires : UInt32) (available : UInt64) : Except Error GemmArgs := do
  rejectIf (m = 0 ∨ n = 0 ∨ k = 0) (GemmError.intoLimit showF32 .zeroDimension)
  rejectIf (¬(1 ≤ nShires.toNat ∧ nShires.toNat ≤ 63))
    (.limit ("sGEMM: n_shires (" ++ toString nShires ++ ") must be in 1..=63"))
  rejectIf (¬isOne alpha ∨ ¬isZero beta)
    (GemmError.intoLimit showF32 (.unsupportedScaling alpha beta))
  checkPointer showF32 "A" a
  checkPointer showF32 "B" b
  checkPointer showF32 "C" c
  checkStride showF32 "A" lda
  checkStride showF32 "B" ldb
  checkStride showF32 "C" ldc
  checkExtent "A" m k a lda
  checkExtent "B" k n b ldb
  checkExtent "C" m n c ldc
  rejectIf (shireMask nShires &&& ~~~available ≠ 0)
    (.limit ("sGEMM: n_shires (" ++ toString nShires ++ ") requires shires 0.."
      ++ toString nShires ++ " (mask " ++ Elf.hex (shireMask nShires).toNat
      ++ "), but the device provides mask " ++ Elf.hex available.toNat))
  pure ⟨a, b, c, nShires.toUInt64, m, n, k, lda, ldb, ldc, alpha, beta⟩

end

/-! ## Tensor instructions -/

inductive TensorEvent where
  | load0
  | load1
  | fma
  | store
deriving DecidableEq, Repr

/-- Row counts are one less than the number of rows. -/
inductive TensorOp where
  /-- Load rows into the lines of the scratchpad from `start` on. -/
  | load (addr : ℕ) (start rows : ℕ) (id : Bool) (stride : ℕ)
  /-- Load rows of `B` into the register file that the next product reads. -/
  | loadB (addr : ℕ) (rows : ℕ) (coop : Bool) (stride : ℕ) (id : Bool)
  | fma (xs : UInt64)
  /-- Store rows of the accumulators. -/
  | store (addr : ℕ) (rows : ℕ) (stride : ℕ)
  | wait (event : TensorEvent)
  | fence
deriving DecidableEq, Repr

/-- The operand of a product instruction. -/
def fma32Xs (bcols arows acols aoffset : UInt8) (tenb : Bool) (bstart astart : UInt8)
    (mulOnly useMask : Bool) : UInt64 :=
  (useMask.toUInt64 <<< 63)
    ||| ((bcols.toUInt64 &&& 0x3) <<< 55)
    ||| ((arows.toUInt64 &&& 0xF) <<< 51)
    ||| ((acols.toUInt64 &&& 0xF) <<< 47)
    ||| ((aoffset.toUInt64 &&& 0xF) <<< 43)
    ||| (tenb.toUInt64 <<< 20)
    ||| ((bstart.toUInt64 &&& 0x3F) <<< 12)
    ||| ((astart.toUInt64 &&& 0x3F) <<< 4)
    ||| mulOnly.toUInt64

/-! ## The kernel

Addresses and indices are computed in 64 bits; an overflow, which here is `none`, would
wrap. -/

def fits64 (x : ℕ) : Option ℕ := if x < 2 ^ 64 then some x else none

def sub64 (x y : ℕ) : Option ℕ := if y ≤ x then some (x - y) else none

def divCeil (x y : ℕ) : ℕ := (x + y - 1) / y

/-- `base + row * stride + col * 4`. -/
def tileAddr (base row stride col : ℕ) : Option ℕ := do
  let rowOffset ← fits64 (row * stride)
  let rowStart ← fits64 (base + rowOffset)
  let colOffset ← fits64 (col * 4)
  fits64 (rowStart + colOffset)

/-- One round of the loop over the inner dimension. -/
def kTileOps (args : GemmArgs) (cRow cCol arows kTile : ℕ) : Option (List TensorOp) := do
  let kStart ← fits64 (kTile * gemmTileK)
  let kLeft ← sub64 args.k.toNat kStart
  let acols ← sub64 (min gemmTileK kLeft) 1
  let aAddr ← tileAddr args.a.toNat cRow args.lda.toNat kStart
  let bAddr ← tileAddr args.b.toNat kStart args.ldb.toNat cCol
  some [.load aAddr 0 arows false args.lda.toNat, .wait .load0,
    .loadB bAddr acols false args.ldb.toNat true,
    .fma (fma32Xs 3 (.ofNat arows) (.ofNat acols) 0 true 0 0 (kTile == 0) false), .wait .fma]

/-- The tile of `C` at `(tileRow, tileCol)`. -/
def computeTile (args : GemmArgs) (tileRow tileCol : ℕ) : Option (List TensorOp) := do
  let cRow ← fits64 (tileRow * gemmTileM)
  let cCol ← fits64 (tileCol * gemmTileN)
  let mLeft ← sub64 args.m.toNat cRow
  let arows ← sub64 (min gemmTileM mLeft) 1
  let rounds ← (List.range (divCeil args.k.toNat gemmTileK)).mapM (kTileOps args cRow cCol arows)
  let cAddr ← tileAddr args.c.toNat cRow args.ldc.toNat cCol
  some (rounds.flatten ++ [.store cAddr arows args.ldc.toNat, .wait .store, .fence])

/-- The local indices that a Minion visits, from `index` on. -/
def tileLoop (shireEnd index : ℕ) : List ℕ :=
  if index < shireEnd then index :: tileLoop shireEnd (index + minionsPerShire) else []
termination_by shireEnd - index
decreasing_by simp only [minionsPerShire]; omega

/-- The tile with index `tileIdx` of the grid. -/
def tileAt (args : GemmArgs) (shireBase localIdx : ℕ) : Option (List TensorOp) := do
  let tileIdx ← fits64 (shireBase + localIdx)
  let nTileN := divCeil args.n.toNat gemmTileN
  computeTile args (tileIdx / nTileN) (tileIdx % nTileN)

/-- What hart `h` issues. -/
def entryPoint (args : GemmArgs) (h : UInt32) : Option (List TensorOp) :=
  if h.toNat % 2 ≠ 0 then
    some []
  else do
    let shire := h.toNat / 64
    let minionInShire := h.toNat % 64 / 2
    let totalMinions := args.nShires.toNat % 2 ^ 32 * minionsPerShire % 2 ^ 32
    let myMinion := (shire * minionsPerShire + minionInShire) % 2 ^ 32
    if totalMinions ≤ myMinion then
      some []
    else do
      let nTileM := divCeil args.m.toNat gemmTileM
      let nTileN := divCeil args.n.toNat gemmTileN
      let nTiles ← fits64 (nTileM * nTileN)
      let shireSize := divCeil nTiles args.nShires.toNat
      let shireBase ← fits64 (shire * shireSize)
      let shireEnd := min (nTiles - shireBase) shireSize
      let tiles ← (tileLoop shireEnd minionInShire).mapM (tileAt args shireBase)
      some tiles.flatten

end EtSoc.Gemm

import EtSoc.Library.BitFields
import EtSoc.Model.Gemm

/-! # Tensor instructions

The words that a kernel writes to the CSRs of the tensor co-processor, and what the co-processor
takes from them. -/

namespace EtSoc.Tensor

open BitFields

def csrTensorFma : UInt16 := 0x801
def csrTensorWait : UInt16 := 0x830
def csrTensorMask : UInt16 := 0x805
def csrTensorStore : UInt16 := 0x87F
def csrTensorLoad : UInt16 := 0x83F
def csrTensorLoadL2 : UInt16 := 0x85F
def csrTensorReduce : UInt16 := 0x800

/-- Bits 47:6 of an address. -/
def addrField47_6 : UInt64 := 0x0000FFFFFFFFFFC0
/-- Bits 47:4 of an address. -/
def addrField47_4 : UInt64 := 0x0000FFFFFFFFFFF0

/-- A write to a CSR; some instructions read register x31 as well. -/
structure TensorWrite where
  csr : UInt16
  xs : UInt64
  x31 : Option UInt64
deriving DecidableEq, Repr

inductive TensorEvent where
  | load0
  | load1
  | loadL2_0
  | loadL2_1
  | prefetch0
  | prefetch1
  | cacheOp
  | fma
  | store
  | tensorReduce
  | tensorQuant
deriving DecidableEq, Repr

def TensorEvent.toU64 : TensorEvent → UInt64
  | .load0 => 0
  | .load1 => 1
  | .loadL2_0 => 2
  | .loadL2_1 => 3
  | .prefetch0 => 4
  | .prefetch1 => 5
  | .cacheOp => 6
  | .fma => 7
  | .store => 8
  | .tensorReduce => 9
  | .tensorQuant => 10

inductive ReduceFunct where
  | fadd
  | fmax
  | fmin
  | add
  | max
  | min
  | move
deriving DecidableEq, Repr

def ReduceFunct.toU64 : ReduceFunct → UInt64
  | .fadd => 0
  | .fmax => 2
  | .fmin => 3
  | .add => 4
  | .max => 6
  | .min => 7
  | .move => 8

/-! ## What a kernel writes -/

def tensorWait (event : TensorEvent) : TensorWrite := ⟨csrTensorWait, event.toU64, none⟩

def setTensorMask (mask : UInt16) : TensorWrite := ⟨csrTensorMask, mask.toUInt64, none⟩

def tensorLoadL2 (addr : UInt64) (start rows : UInt8) (id : Bool) (stride : UInt64) :
    TensorWrite :=
  ⟨csrTensorLoadL2,
    ((start.toUInt64 &&& 0x3F) <<< 53) ||| (addr &&& addrField47_6) ||| (rows.toUInt64 &&& 0xF),
    some (stride ||| id.toUInt64)⟩

def tensorLoad (addr : UInt64) (start rows : UInt8) (id : Bool) (stride : UInt64) : TensorWrite :=
  ⟨csrTensorLoad,
    ((start.toUInt64 &&& 0x3F) <<< 53) ||| (addr &&& addrField47_6) ||| (rows.toUInt64 &&& 0xF),
    some (stride ||| id.toUInt64)⟩

def tensorLoadInterleave16 (addr : UInt64) (start rows : UInt8) (id : Bool) (stride : UInt64) :
    TensorWrite :=
  ⟨csrTensorLoad,
    ((0b010 : UInt64) <<< 59) ||| ((start.toUInt64 &&& 0x3F) <<< 53) ||| (addr &&& addrField47_6)
      ||| (rows.toUInt64 &&& 0xF),
    some (stride ||| id.toUInt64)⟩

def tensorLoadB (addr : UInt64) (rows : UInt8) (coop : Bool) (stride : UInt64) (id : Bool) :
    TensorWrite :=
  ⟨csrTensorLoad,
    (coop.toUInt64 <<< 62) ||| ((1 : UInt64) <<< 52) ||| (addr &&& addrField47_6)
      ||| (rows.toUInt64 &&& 0xF),
    some (stride ||| id.toUInt64)⟩

def fma16a32Xs (bcols arows acols aoffset : UInt8) (tenb : Bool) (bstart astart : UInt8)
    (mulOnly useMask : Bool) : UInt64 :=
  (useMask.toUInt64 <<< 63)
    ||| ((bcols.toUInt64 &&& 0x3) <<< 55)
    ||| ((arows.toUInt64 &&& 0xF) <<< 51)
    ||| ((acols.toUInt64 &&& 0xF) <<< 47)
    ||| ((aoffset.toUInt64 &&& 0xF) <<< 43)
    ||| (tenb.toUInt64 <<< 20)
    ||| ((bstart.toUInt64 &&& 0x3F) <<< 12)
    ||| ((astart.toUInt64 &&& 0x3F) <<< 4)
    ||| ((1 : UInt64) <<< 1)
    ||| mulOnly.toUInt64

def ima8a32Xs (bcols arows acols aoffset : UInt8) (bInMem : Bool) (bstart astart : UInt8)
    (dstFp bUnsigned aUnsigned mulOnly useMask : Bool) : UInt64 :=
  (useMask.toUInt64 <<< 63)
    ||| ((bcols.toUInt64 &&& 0x3) <<< 55)
    ||| ((arows.toUInt64 &&& 0xF) <<< 51)
    ||| ((acols.toUInt64 &&& 0xF) <<< 47)
    ||| ((aoffset.toUInt64 &&& 0xF) <<< 43)
    ||| (dstFp.toUInt64 <<< 23)
    ||| (bUnsigned.toUInt64 <<< 22)
    ||| (aUnsigned.toUInt64 <<< 21)
    ||| (bInMem.toUInt64 <<< 20)
    ||| ((bstart.toUInt64 &&& 0x3F) <<< 12)
    ||| ((astart.toUInt64 &&& 0x3F) <<< 4)
    ||| ((3 : UInt64) <<< 1)
    ||| mulOnly.toUInt64

/-- The three products write to one CSR. -/
def tensorFma (xs : UInt64) : TensorWrite := ⟨csrTensorFma, xs, none⟩

def tensorStoreFromScp (addr : UInt64) (rows start step : UInt8) (stride : UInt64) : TensorWrite :=
  ⟨csrTensorStore,
    (((if 1 ≤ step then step.toUInt64 - 1 else 0) &&& 0x3) <<< 62)
      ||| ((start.toUInt64 &&& 0x3F) <<< 56)
      ||| ((rows.toUInt64 &&& 0xF) <<< 51)
      ||| ((1 : UInt64) <<< 48)
      ||| (addr &&& addrField47_6),
    some stride⟩

def tensorSend (freg count : UInt8) (target : UInt16) : TensorWrite :=
  ⟨csrTensorReduce,
    ((freg.toUInt64 &&& 0x1F) <<< 57) ||| ((count.toUInt64 &&& 0x7F) <<< 16)
      ||| ((target.toUInt64 &&& 0x1FFF) <<< 3),
    none⟩

def tensorRecv (freg : UInt8) (funct : ReduceFunct) (count : UInt8) (source : UInt16) :
    TensorWrite :=
  ⟨csrTensorReduce,
    ((freg.toUInt64 &&& 0x1F) <<< 57)
      ||| ((funct.toU64 &&& 0xF) <<< 24)
      ||| ((count.toUInt64 &&& 0x7F) <<< 16)
      ||| ((source.toUInt64 &&& 0x1FFF) <<< 3)
      ||| 1,
    none⟩

def tensorStore (addr : UInt64) (arows : UInt8) (stride : UInt64) : TensorWrite :=
  ⟨csrTensorStore,
    ((3 : UInt64) <<< 55) ||| ((arows.toUInt64 &&& 0xF) <<< 51) ||| (addr &&& addrField47_4),
    some stride⟩

/-- The calls of the intrinsics. -/
inductive TensorCall where
  | wait (event : TensorEvent)
  | setMask (mask : UInt16)
  | loadL2 (addr : UInt64) (start rows : UInt8) (id : Bool) (stride : UInt64)
  | load (addr : UInt64) (start rows : UInt8) (id : Bool) (stride : UInt64)
  | loadInterleave16 (addr : UInt64) (start rows : UInt8) (id : Bool) (stride : UInt64)
  | loadB (addr : UInt64) (rows : UInt8) (coop : Bool) (stride : UInt64) (id : Bool)
  | fma32 (bcols arows acols aoffset : UInt8) (tenb : Bool) (bstart astart : UInt8)
      (mulOnly useMask : Bool)
  | fma16a32 (bcols arows acols aoffset : UInt8) (tenb : Bool) (bstart astart : UInt8)
      (mulOnly useMask : Bool)
  | ima8a32 (bcols arows acols aoffset : UInt8) (bInMem : Bool) (bstart astart : UInt8)
      (dstFp bUnsigned aUnsigned mulOnly useMask : Bool)
  | storeFromScp (addr : UInt64) (rows start step : UInt8) (stride : UInt64)
  | store (addr : UInt64) (arows : UInt8) (stride : UInt64)
  | send (freg count : UInt8) (target : UInt16)
  | recv (freg : UInt8) (funct : ReduceFunct) (count : UInt8) (source : UInt16)
deriving DecidableEq, Repr

def TensorCall.write : TensorCall → TensorWrite
  | .wait event => tensorWait event
  | .setMask mask => setTensorMask mask
  | .loadL2 addr start rows id stride => tensorLoadL2 addr start rows id stride
  | .load addr start rows id stride => tensorLoad addr start rows id stride
  | .loadInterleave16 addr start rows id stride =>
    tensorLoadInterleave16 addr start rows id stride
  | .loadB addr rows coop stride id => tensorLoadB addr rows coop stride id
  | .fma32 bcols arows acols aoffset tenb bstart astart mulOnly useMask =>
    tensorFma (Gemm.fma32Xs bcols arows acols aoffset tenb bstart astart mulOnly useMask)
  | .fma16a32 bcols arows acols aoffset tenb bstart astart mulOnly useMask =>
    tensorFma (fma16a32Xs bcols arows acols aoffset tenb bstart astart mulOnly useMask)
  | .ima8a32 bcols arows acols aoffset bInMem bstart astart dstFp bUnsigned aUnsigned mulOnly
      useMask =>
    tensorFma (ima8a32Xs bcols arows acols aoffset bInMem bstart astart dstFp bUnsigned aUnsigned
      mulOnly useMask)
  | .storeFromScp addr rows start step stride => tensorStoreFromScp addr rows start step stride
  | .store addr arows stride => tensorStore addr arows stride
  | .send freg count target => tensorSend freg count target
  | .recv freg funct count source => tensorRecv freg funct count source

/-! ## What the co-processor reads -/

/-- An instruction with its operands in numbers. Counts are one less than what they count, and
addresses and strides are in lines, but for those of a store from the registers. -/
inductive TensorInstr where
  | wait (event : ℕ)
  | setMask (mask : ℕ)
  | loadL2 (line start rows id stride : ℕ)
  | load (line start rows id stride : ℕ)
  | loadInterleave16 (line start rows id stride : ℕ)
  | loadB (line rows coop stride id : ℕ)
  | fma32 (bcols arows acols aoffset tenb bstart astart mulOnly useMask : ℕ)
  | fma16a32 (bcols arows acols aoffset tenb bstart astart mulOnly useMask : ℕ)
  | ima8a32 (bcols arows acols aoffset tenb bstart astart dst ub ua mulOnly useMask : ℕ)
  | storeFromScp (line rows start step stride : ℕ)
  | store (addr arows stride : ℕ)
  | send (freg count target : ℕ)
  | recv (freg funct count source : ℕ)
deriving DecidableEq, Repr

def field (w : UInt64) (offset width : ℕ) : ℕ := Field.get ⟨offset, width⟩ w.toNat

/-- The layout of the instruction words. Reserved bits must be zero. -/
def TensorWrite.decode (w : TensorWrite) : Option TensorInstr :=
  let xs := field w.xs
  let x31 := field (w.x31.getD 0)
  if w.csr = csrTensorWait then
    if xs 4 60 = 0 then some (.wait (xs 0 4)) else none
  else if w.csr = csrTensorMask then
    if xs 16 48 = 0 then some (.setMask (xs 0 16)) else none
  else if w.csr = csrTensorLoadL2 then
    if xs 59 5 = 0 ∧ xs 48 5 = 0 ∧ xs 4 2 = 0 then
      some (.loadL2 (xs 6 42) (xs 53 6) (xs 0 4) (x31 0 1) (x31 6 58))
    else none
  else if w.csr = csrTensorLoad then
    if xs 63 1 = 0 ∧ xs 48 4 = 0 ∧ xs 4 2 = 0 then
      if xs 52 1 = 1 then
        if xs 53 9 = 0 then some (.loadB (xs 6 42) (xs 0 4) (xs 62 1) (x31 6 58) (x31 0 1))
        else none
      else if xs 59 4 = 0 then
        some (.load (xs 6 42) (xs 53 6) (xs 0 4) (x31 0 1) (x31 6 58))
      else if xs 59 4 = 2 then
        some (.loadInterleave16 (xs 6 42) (xs 53 6) (xs 0 4) (x31 0 1) (x31 6 58))
      else none
    else none
  else if w.csr = csrTensorFma then
    if xs 57 6 = 0 ∧ xs 24 19 = 0 ∧ xs 18 2 = 0 ∧ xs 10 2 = 0 then
      if xs 1 3 = 0 ∧ xs 21 3 = 0 then
        some (.fma32 (xs 55 2) (xs 51 4) (xs 47 4) (xs 43 4) (xs 20 1) (xs 12 6) (xs 4 6) (xs 0 1)
          (xs 63 1))
      else if xs 1 3 = 1 ∧ xs 21 3 = 0 then
        some (.fma16a32 (xs 55 2) (xs 51 4) (xs 47 4) (xs 43 4) (xs 20 1) (xs 12 6) (xs 4 6)
          (xs 0 1) (xs 63 1))
      else if xs 1 3 = 3 then
        some (.ima8a32 (xs 55 2) (xs 51 4) (xs 47 4) (xs 43 4) (xs 20 1) (xs 12 6) (xs 4 6)
          (xs 23 1) (xs 22 1) (xs 21 1) (xs 0 1) (xs 63 1))
      else none
    else none
  else if w.csr = csrTensorStore then
    if xs 48 1 = 1 then
      if xs 55 1 = 0 ∧ xs 49 2 = 0 ∧ xs 0 6 = 0 then
        some (.storeFromScp (xs 6 42) (xs 51 4) (xs 56 6) (xs 62 2) (x31 6 58))
      else none
    else if xs 57 7 = 0 ∧ xs 55 2 = 3 ∧ xs 49 2 = 0 ∧ xs 0 4 = 0 then
      some (.store (xs 4 44) (xs 51 4) (x31 4 44))
    else none
  else if w.csr = csrTensorReduce then
    if xs 62 2 = 0 ∧ xs 28 29 = 0 ∧ xs 23 1 = 0 ∧ xs 2 1 = 0 then
      if xs 0 2 = 0 ∧ xs 24 4 = 0 then some (.send (xs 57 5) (xs 16 7) (xs 3 13))
      else if xs 0 2 = 1 then some (.recv (xs 57 5) (xs 24 4) (xs 16 7) (xs 3 13))
      else none
    else none
  else none

end EtSoc.Tensor

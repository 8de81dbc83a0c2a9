import EtSoc.Library.ByteMemory
import EtSoc.Library.Strides
import EtSoc.Model.CacheOps
import EtSoc.Model.Gemm

/-! # Grid-stride kernels

The packed-single test kernel, whose units of one cache line are dealt out to the Minions of
a sparse set of shires. -/

namespace EtSoc.PsMath

def psMathOpExp2 : UInt32 := 1
def psMathOpLog2 : UInt32 := 2
def psMathOpReciprocal : UInt32 := 3

structure PsMathTestArgs where
  input : UInt64
  output : UInt64
  count : UInt64
  shireMask : UInt32
  operation : UInt32
deriving DecidableEq, Repr

/-- Bytes held by one PS register. -/
def psBytes : ℕ := 32
def unitElements : ℕ := cacheLine / 4

abbrev Register := Vector UInt8 32

/-- What the instructions make of a register. -/
structure PsUnit where
  fexpPs : Register → Register
  flogPs : Register → Register
  frcpPs : Register → Register

inductive AccessKind where
  | invalidate
  | load
  | store
  | writeback
deriving DecidableEq, Repr

/-- What a hart does to memory, for which unit. -/
structure Access where
  hart : UInt32
  unit : ℕ
  kind : AccessKind
  addr : UInt64
  len : ℕ
deriving DecidableEq, Repr

structure KernelState where
  bytes : UInt64 → UInt8
  /-- Ghost, oldest first. -/
  accesses : List Access

/-! ## Who takes part -/

def shireId (hart : UInt32) : UInt32 := hart >>> 6

/-- `1u32.checked_shl(shire)`, or zero. -/
def shireBit (shire : UInt32) : UInt32 := if shire < 32 then 1 <<< shire else 0

def countOnes (x : UInt32) : UInt32 :=
  UInt32.ofNat (Nat.count (fun i => x.toNat.testBit i = true) 32)

/-- The primary harts of the launched shires. -/
def launched (shireMask hart : UInt32) : Bool :=
  hart &&& 1 = 0 ∧ shireMask &&& shireBit (shireId hart) ≠ 0

/-- Dense Minion rank over the launched shires. -/
def rank (shireMask hart : UInt32) : UInt32 :=
  let shiresBelow := countOnes (shireMask &&& (shireBit (shireId hart) - 1))
  shiresBelow * UInt32.ofNat Gemm.minionsPerShire + ((hart &&& 63) >>> 1)

def nMinions (shireMask : UInt32) : UInt32 :=
  countOnes shireMask * UInt32.ofNat Gemm.minionsPerShire

def nUnits (args : PsMathTestArgs) : ℕ := args.count.toNat / unitElements

/-! ## The kernel -/

variable (ps : PsUnit)

def apply (operation : UInt32) (r : Register) : Register :=
  if operation = psMathOpExp2 then ps.fexpPs r
  else if operation = psMathOpLog2 then ps.flogPs r
  else if operation = psMathOpReciprocal then ps.frcpPs r
  else r

def loadPs (bytes : UInt64 → UInt8) (addr : UInt64) : Register :=
  Vector.ofFn fun k : Fin 32 => bytes (addr + UInt64.ofNat k)

/-- One round of the loop of a hart: both registers are loaded before any is stored. -/
def processUnit (args : PsMathTestArgs) (hart : UInt32) (s : KernelState) (unit : ℕ) :
    KernelState :=
  let offset := UInt64.ofNat (unit * cacheLine)
  let source := args.input + offset
  let destination := args.output + offset
  let half := UInt64.ofNat psBytes
  let f0 := apply ps args.operation (loadPs s.bytes source)
  let f1 := apply ps args.operation (loadPs s.bytes (source + half))
  let bytes := ByteMemory.write s.bytes destination f0.toList
  { bytes := ByteMemory.write bytes (destination + half) f1.toList
    accesses := s.accesses ++
      [⟨hart, unit, .invalidate, source, cacheLine⟩,
        ⟨hart, unit, .load, source, psBytes⟩, ⟨hart, unit, .load, source + half, psBytes⟩,
        ⟨hart, unit, .store, destination, psBytes⟩,
        ⟨hart, unit, .store, destination + half, psBytes⟩,
        ⟨hart, unit, .writeback, destination, cacheLine⟩] }

/-- The units that a hart takes. -/
def units (args : PsMathTestArgs) (hart : UInt32) : List ℕ :=
  if launched args.shireMask hart then
    Strides.strided (nMinions args.shireMask).toNat (nUnits args) (nUnits args)
      (rank args.shireMask hart).toNat
  else
    []

def entryPoint (args : PsMathTestArgs) (s : KernelState) (hart : UInt32) : KernelState :=
  (units args hart).foldl (processUnit ps args hart) s

/-- The kernel on several harts, one after another. -/
def run (args : PsMathTestArgs) (harts : List UInt32) (s : KernelState) : KernelState :=
  harts.foldl (entryPoint ps args) s

/-- The rounds of several harts in the order in which they happen. -/
def runRounds (args : PsMathTestArgs) (rounds : List (UInt32 × ℕ)) (s : KernelState) :
    KernelState :=
  rounds.foldl (fun s round => processUnit ps args round.1 s round.2) s

end EtSoc.PsMath

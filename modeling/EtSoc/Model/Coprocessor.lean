import EtSoc.Library.SharedMemory
import EtSoc.Model.Tensor
import Mathlib.Algebra.BigOperators.Group.Finset.Basic
import Mathlib.Logic.Function.Basic

/-! # The tensor co-processors

What the tensor instructions do. A Minion issues them, and its co-processor works on them while
the Minion goes on to the next: only a wait tells that an operation is done. Numbers are from any
type that has sums and products. -/

namespace EtSoc.Gemm

open Tensor (TensorWrite TensorInstr tensorLoad tensorLoadB tensorFma tensorStore tensorWait)

/-! ## Instructions -/

def TensorEvent.code : TensorEvent → Tensor.TensorEvent
  | .load0 => .load0
  | .load1 => .load1
  | .fma => .fma
  | .store => .store

/-- The write to a CSR that issues an instruction; a fence is none. -/
def TensorOp.write : TensorOp → Option TensorWrite
  | .load addr start rows id stride =>
    some (tensorLoad (.ofNat addr) (.ofNat start) (.ofNat rows) id (.ofNat stride))
  | .loadB addr rows coop stride id =>
    some (tensorLoadB (.ofNat addr) (.ofNat rows) coop (.ofNat stride) id)
  | .fma xs => some (tensorFma xs)
  | .store addr rows stride => some (tensorStore (.ofNat addr) (.ofNat rows) (.ofNat stride))
  | .wait event => some (tensorWait event.code)
  | .fence => none

def TensorOp.instr (op : TensorOp) : Option TensorInstr := op.write.bind TensorWrite.decode

/-- The operands of a product; counts are one less than what they count. -/
structure Fma where
  bcols : ℕ
  arows : ℕ
  acols : ℕ
  aoffset : ℕ
  tenb : ℕ
  bstart : ℕ
  astart : ℕ
  mulOnly : ℕ
  useMask : ℕ
deriving DecidableEq, Repr

/-- The operations that a co-processor has to do. Addresses are in words of four bytes, and a row
has 16 of them. -/
inductive Micro where
  /-- Copy a row into a line of the scratchpad. -/
  | loadRow (id addr line : ℕ)
  /-- Copy a row into the register file for `B`. -/
  | loadBRow (id addr row : ℕ)
  | fma (operands : Fma)
  /-- Copy a row of accumulators to the memory. -/
  | storeRow (addr row : ℕ)
deriving DecidableEq, Repr

/-- The event that tells that an operation is done. -/
def Micro.event : Micro → ℕ
  | .loadRow id _ _ | .loadBRow id _ _ => id
  | .fma _ => Tensor.TensorEvent.fma.toU64.toNat
  | .storeRow _ _ => Tensor.TensorEvent.store.toU64.toNat

def Micro.isLoadB : Micro → Bool
  | .loadBRow _ _ _ => true
  | .loadRow _ _ _ | .fma _ | .storeRow _ _ => false

/-- What an instruction asks for. The kernel issues no others than these. -/
def instrMicros : TensorInstr → List Micro
  | .load line start rows id stride =>
    (List.range (rows + 1)).map fun i => .loadRow id ((line + i * stride) * 16) (start + i)
  | .loadB line rows _ stride id =>
    (List.range (rows + 1)).map fun i => .loadBRow id ((line + i * stride) * 16) i
  | .fma32 bcols arows acols aoffset tenb bstart astart mulOnly useMask =>
    [.fma ⟨bcols, arows, acols, aoffset, tenb, bstart, astart, mulOnly, useMask⟩]
  | .store addr rows stride =>
    (List.range (rows + 1)).map fun i => .storeRow ((addr + i * stride) * 4) i
  | _ => []

/-! ## Machines -/

variable {R : Type*}

/-- What a co-processor holds: the scratchpad, the register file for `B`, the floating-point
registers as rows of 16, and the row mask. -/
structure TensorUnit (R : Type*) where
  scp : ℕ → ℕ → R
  tenB : ℕ → ℕ → R
  acc : ℕ → ℕ → R
  mask : ℕ

/-- A Minion with the instructions that it has yet to issue, and its co-processor with the
operations that it has yet to do. -/
structure Core (R : Type*) where
  rest : List TensorOp
  pending : List Micro
  unit : TensorUnit R

/-- The memory, word by word. -/
abbrev Memory (R : Type*) := ℕ → R

section

variable [AddCommMonoid R] [Mul R]

/-- The accumulators after a product. -/
def Fma.result (f : Fma) (u : TensorUnit R) (i j : ℕ) : R :=
  if i ≤ f.arows ∧ j < 4 * (f.bcols + 1) ∧ (f.useMask = 1 → u.mask.testBit i) then
    (if f.mulOnly = 1 then 0 else u.acc i j) + ∑ l ∈ Finset.range (f.acols + 1),
      u.scp (f.astart + i) (f.aoffset + l) *
        (if f.tenb = 1 then u.tenB l j else u.scp (f.bstart + l) j)
  else
    u.acc i j

def Micro.perform (mem : Memory R) (u : TensorUnit R) : Micro → Memory R × TensorUnit R
  | .loadRow _ addr line =>
    (mem, { u with scp := Function.update u.scp line fun x => mem (addr + x) })
  | .loadBRow _ addr row =>
    (mem, { u with tenB := Function.update u.tenB row fun x => mem (addr + x) })
  | .fma f => (mem, { u with acc := f.result u })
  | .storeRow addr row =>
    (fun w => if addr ≤ w ∧ w < addr + 16 then u.acc row (w - addr) else mem w, u)

/-- A product that takes `B` from the register file waits until that is loaded. -/
def Micro.Ready (pending : List Micro) : Micro → Prop
  | .fma f => f.tenb = 1 → ∀ micro ∈ pending, ¬micro.isLoadB
  | .loadRow _ _ _ | .loadBRow _ _ _ | .storeRow _ _ => True

instance (pending : List Micro) (micro : Micro) : Decidable (micro.Ready pending) := by
  cases micro <;> unfold Micro.Ready <;> infer_instance

/-- What happens next at a Minion: it issues its next instruction, or its co-processor does one
of the operations that it has yet to do. -/
inductive Act where
  | issue
  | perform (i : ℕ)
deriving DecidableEq, Repr

/-- A wait is passed once no operation of its event is left to do. -/
def Core.issue (c : Core R) : Core R :=
  match c.rest with
  | [] => c
  | op :: rest =>
    match op.instr with
    | none => { c with rest := rest }
    | some (.wait event) =>
      if ∀ micro ∈ c.pending, micro.event ≠ event then { c with rest := rest } else c
    | some instr => { c with rest := rest, pending := c.pending ++ instrMicros instr }

def Core.perform (i : ℕ) (mem : Memory R) (c : Core R) : Memory R × Core R :=
  match c.pending[i]? with
  | none => (mem, c)
  | some micro =>
    if micro.Ready c.pending then
      ((micro.perform mem c.unit).1,
        { c with pending := c.pending.eraseIdx i, unit := (micro.perform mem c.unit).2 })
    else (mem, c)

def Core.act : Act → Memory R → Core R → Memory R × Core R
  | .issue, mem, c => (mem, c.issue)
  | .perform i, mem, c => c.perform i mem

/-- The Minions, of which each has a hart that enters the kernel and a co-processor. -/
abbrev Machine (R : Type*) := SharedMemory.State UInt32 (Memory R) (Core R)

/-- The launch of the kernel, whatever the memory and the co-processors hold. -/
def GemmArgs.launch (args : GemmArgs) (mem : Memory R) (units : UInt32 → TensorUnit R) :
    Machine R :=
  ⟨mem, fun hart => ⟨(entryPoint args hart).getD [], [], units hart⟩⟩

end

end EtSoc.Gemm

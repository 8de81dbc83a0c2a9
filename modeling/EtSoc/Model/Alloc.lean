import EtSoc.Model.Tags

/-! # The DRAM bump allocator and the argument slots -/

namespace EtSoc

open Program PowersOfTwo

def cacheLine : ℕ := 64

/-- `align_up`, whose sum is checked. -/
def alignUpChecked (value align : ℕ) : M ℕ := do
  let _ ← u64Add value align
  pure (alignUp value align)

/-- End of the user DRAM region. -/
def dramEnd (dram : DramInfo) : M ℕ := u64Add dram.base dram.size

/-- Bytes still available in the bump allocator. -/
def dramAvailable (dev : Device) : ℕ := (dev.dram.base + dev.dram.size) - dev.next

def allocAlignment (dram : DramInfo) : ℕ := max dram.alignment cacheLine

/-- Allocate a region of device DRAM aligned to at least a cache line. -/
def alloc (size : ℕ) : M DeviceRegion := do
  let dev ← getDev
  let start ← alignUpChecked dev.next (allocAlignment dev.dram)
  let stop ← dramEnd dev.dram
  if start > stop ∨ size > stop - start then
    Prog.throw (.outOfMemory size (dramAvailable dev))
  else do
    modifyDev fun d => { d with next := start + size }
    recordHeap (.allocated ⟨start, size⟩)
    pure ⟨start, size⟩

structure AllocMark where
  position : ℕ
deriving DecidableEq, Repr

def allocMark : M AllocMark := do
  let dev ← getDev
  recordHeap .marked
  pure ⟨dev.next⟩

/-- Whether the command that last used a slot is still outstanding. -/
def ArgsSlot.busy (slot : ArgsSlot) (outstanding : Finset Tag) : Bool :=
  match slot.owner with
  | some tag => tag ∈ outstanding
  | none => false

/-- Reclaim every allocation made since `mark`, the `k`th one taken. The host buffers of
forgotten slots are unmapped, unless a command of the slot is outstanding. -/
def resetTo (k : ℕ) (mark : AllocMark) : M Unit := do
  let dev ← getDev
  let target := max mark.position dev.kernelEnd
  if target < dev.next then do
    modifyDev fun d => { d with next := target }
    recordHeap (.reset k)
  else
    pure ()
  let forgotten := dev.argsSlots.filter fun slot => ¬slot.region.addr < target
  unmap ((forgotten.filter fun slot => ¬slot.busy dev.outstanding).filterMap (·.host))
  modifyDev fun d =>
    { d with argsSlots := d.argsSlots.filter fun slot => slot.region.addr < target }

/-- The smallest reusable slot that fits, the first one among equals. -/
def reusableSlot (slots : List ArgsSlot) (outstanding : Finset Tag) (len : ℕ) : Option ℕ :=
  let fits := slots.zipIdx.filter fun p => len ≤ p.1.region.size ∧ ¬p.1.busy outstanding
  (fits.foldl (fun best p =>
    match best with
    | some q => if p.1.region.size < q.1.region.size then some p else some q
    | none => some p) none).map (·.2)

/-- Index of a slot for an argument payload of `len` bytes, newly allocated if need be. -/
def argsSlot (len : ℕ) : M ℕ := do
  let dev ← getDev
  match reusableSlot dev.argsSlots dev.outstanding len with
  | some i => pure i
  | none => do
    let region ← alloc len
    let dev ← getDev
    modifyDev fun d => { d with argsSlots := d.argsSlots ++ [⟨region, none, none⟩] }
    pure dev.argsSlots.length

end EtSoc

import EtSoc.Model.Dma
import EtSoc.Model.Elf

/-! # Loading kernels -/

namespace EtSoc

open Program PowersOfTwo

structure LoadedKernel where
  codeStartAddress : ℕ
deriving DecidableEq, Repr

/-- Size of the zero block reused to clear `.bss` tails. -/
def zeroChunk : ℕ := 2 ^ 20

/-- Check one segment against the DRAM region and the live window, and return the end of
what is occupied. -/
def checkSegment (dram : DramInfo) (regionEnd liveStart liveEnd occupiedEnd : ℕ)
    (seg : Elf.LoadSegment) : M ℕ := do
  let segEnd ← u64Add seg.vaddr seg.memSize
  if seg.vaddr < dram.base ∨ regionEnd < segEnd then
    Prog.throw (.limit ("kernel segment [" ++ Elf.hex seg.vaddr ++ ", " ++ Elf.hex segEnd
      ++ ") lies outside the DRAM region [" ++ Elf.hex dram.base ++ ", " ++ Elf.hex regionEnd
      ++ ")"))
  else if 0 < seg.memSize ∧ seg.vaddr < liveEnd ∧ liveStart < segEnd then
    Prog.throw (.limit ("kernel segment [" ++ Elf.hex seg.vaddr ++ ", " ++ Elf.hex segEnd
      ++ ") overlaps live allocations [" ++ Elf.hex liveStart ++ ", " ++ Elf.hex liveEnd
      ++ "); load kernels before allocating, or reset_to an earlier mark first"))
  else
    pure (max occupiedEnd segEnd)

def checkSegments (dram : DramInfo) (regionEnd liveStart liveEnd : ℕ) :
    List Elf.LoadSegment → ℕ → M ℕ
  | [], occupiedEnd => pure occupiedEnd
  | seg :: segs, occupiedEnd => do
    let occupiedEnd ← checkSegment dram regionEnd liveStart liveEnd occupiedEnd seg
    checkSegments dram regionEnd liveStart liveEnd segs occupiedEnd

/-- Clear the tail of a segment from byte `done` on; `n` bounds the rounds. -/
def clearTail (addr tail : ℕ) : ℕ → ℕ → M Unit
  | 0, _ => pure ()
  | n + 1, done =>
    if done < tail then do
      let len := min (tail - done) (min tail zeroChunk)
      let dst ← u64Add addr done
      memcpyH2d (List.replicate len 0) dst
      clearTail addr tail n (done + len)
    else
      pure ()

def loadFile (image : List UInt8) (seg : Elf.LoadSegment) : M Unit :=
  if 0 < seg.fileSize then
    memcpyH2d ((image.drop seg.fileOffset).take seg.fileSize) seg.vaddr
  else
    pure ()

def loadTail (seg : Elf.LoadSegment) : M Unit :=
  if seg.fileSize < seg.memSize then do
    let addr ← u64Add seg.vaddr seg.fileSize
    clearTail addr (seg.memSize - seg.fileSize) (seg.memSize - seg.fileSize) 0
  else
    pure ()

def loadSegments (image : List UInt8) : List Elf.LoadSegment → M Unit
  | [] => pure ()
  | seg :: segs => do
    loadFile image seg
    loadTail seg
    loadSegments image segs

/-- Load a device kernel into device DRAM. -/
def loadKernel (image : List UInt8) : M LoadedKernel := do
  let kernel ← Prog.ofExcept (Elf.parse image)
  let dev ← getDev
  let regionEnd ← dramEnd dev.dram
  let occupiedEnd ←
    checkSegments dev.dram regionEnd dev.kernelEnd dev.next kernel.segments dev.kernelEnd
  loadSegments image kernel.segments
  -- Reserve the DRAM the kernel occupies against future allocations.
  let aligned ← alignUpChecked occupiedEnd (max dev.dram.alignment 1)
  let kernelEnd := min aligned regionEnd
  modifyDev fun d => { d with kernelEnd := kernelEnd, next := max d.next kernelEnd }
  recordHeap (.loaded (kernel.segments.map fun s => (s.vaddr, s.memSize)) kernelEnd)
  pure ⟨kernel.entry⟩

end EtSoc

import EtSoc.Model.Elf

/-! # ELF images, with the panics

The same parser with every indexing and every unchecked sum as the code has them: an index
outside the image and a sum outside 64 bits panic. -/

namespace EtSoc.Elf

open Program Bytes

/-- A computation that can panic. -/
abbrev Checked := Prog Unit Error

/-- `image[i]`. -/
def index (image : List UInt8) (i : ℕ) : Checked UInt8 :=
  match image[i]? with
  | some b => pure b
  | none => Prog.panic "index out of bounds"

/-- `&image[start..stop]`. -/
def span (image : List UInt8) (start stop : ℕ) : Checked (List UInt8) :=
  match slice? image start (stop - start) with
  | some bytes => pure bytes
  | none => Prog.panic "range end index out of range"

def add (a b : ℕ) : Checked ℕ :=
  if a + b < 2 ^ 64 then pure (a + b) else Prog.panic "attempt to add with overflow"

def mul (a b : ℕ) : Checked ℕ :=
  if a * b < 2 ^ 64 then pure (a * b) else Prog.panic "attempt to multiply with overflow"

/-- `checked_mul` and `checked_add`. -/
def tableEnd (phoff phnum : ℕ) : Except Error ℕ :=
  if phnum * phentSize < 2 ^ 64 then
    checkedAdd phoff (phnum * phentSize) "program header table range overflows"
  else
    fail "program header table range overflows"

/-- `rd_u16`, `rd_u32` and `rd_u64`. -/
def rd (image : List UInt8) (offset width : ℕ) : Checked ℕ := do
  let _ ← add offset width
  Prog.ofExcept (readField image offset width)

def ensure (p : Prop) [Decidable p] (message : String) : Checked Unit :=
  Prog.ofExcept (require p message)

/-- Whether two ranges of memory overlap, the second one known to end at `memEnd`. -/
def overlaps (vaddr memSize memEnd : ℕ) (s : LoadSegment) : Checked Bool :=
  if 0 < memSize ∧ 0 < s.memSize then do
    let stop ← add s.vaddr s.memSize
    pure (vaddr < stop ∧ s.vaddr < memEnd)
  else
    pure false

/-- The first of `segments` that overlaps. -/
def findOverlap (vaddr memSize memEnd : ℕ) : List LoadSegment → Checked (Option LoadSegment)
  | [] => pure none
  | s :: segments => do
    let found ← overlaps vaddr memSize memEnd s
    if found then pure (some s) else findOverlap vaddr memSize memEnd segments

def checkedHeader (image : List UInt8) (base : ℕ) (segments : List LoadSegment) :
    Checked (List LoadSegment) := do
  let type ← rd image base 4
  if type ≠ ptLoad then
    pure segments
  else do
    let fileOffsetAt ← add base 8
    let fileOffset ← rd image fileOffsetAt 8
    let vaddrAt ← add base 16
    let vaddr ← rd image vaddrAt 8
    let fileSizeAt ← add base 32
    let fileSize ← rd image fileSizeAt 8
    let memSizeAt ← add base 40
    let memSize ← rd image memSizeAt 8
    let fileEnd ← Prog.ofExcept (checkedAdd fileOffset fileSize "segment file range overflows")
    ensure (fileEnd ≤ image.length) "segment file range out of bounds"
    ensure (fileSize ≤ memSize) "segment mem_size smaller than file_size"
    let memEnd ← Prog.ofExcept (checkedAdd vaddr memSize "segment memory range overflows")
    let other ← findOverlap vaddr memSize memEnd segments
    match other with
    | some other =>
      Prog.ofExcept (fail ("segment [" ++ hex vaddr ++ ", " ++ hex memEnd ++ ") overlaps segment at "
        ++ hex other.vaddr))
    | none => pure (segments ++ [⟨fileOffset, vaddr, fileSize, memSize⟩])

/-- The headers `i`, `i + 1`, and so on, `n` in number. -/
def checkedHeaders (image : List UInt8) (phoff : ℕ) :
    ℕ → ℕ → List LoadSegment → Checked (List LoadSegment)
  | 0, _, segments => pure segments
  | n + 1, i, segments => do
    let offset ← mul i phentSize
    let base ← add phoff offset
    let segments ← checkedHeader image base segments
    checkedHeaders image phoff n (i + 1) segments

/-- Whether a segment contains the entry point. -/
def checkedContains (entry : ℕ) (s : LoadSegment) : Checked Bool :=
  if s.vaddr ≤ entry then do
    let stop ← add s.vaddr s.memSize
    pure (entry < stop)
  else
    pure false

def anyContains (entry : ℕ) : List LoadSegment → Checked Bool
  | [] => pure false
  | s :: segments => do
    let found ← checkedContains entry s
    if found then pure true else anyContains entry segments

def parseChecked (image : List UInt8) : Checked KernelImage := do
  ensure (64 ≤ image.length) "image shorter than an ELF64 header"
  let magic ← span image 0 4
  ensure (magic = [127, 69, 76, 70]) "bad ELF magic"
  let fileClass ← index image 4
  ensure (fileClass = 2) "not an ELF64 image"
  let fileData ← index image 5
  ensure (fileData = 1) "not a little-endian image"
  let low ← index image 18
  let high ← index image 19
  let machine := leNat [low, high]
  ensure (machine = emRiscv)
    ("unexpected machine " ++ toString machine ++ " (expected RISC-V " ++ toString emRiscv ++ ")")
  let entry ← rd image 24 8
  let phoff ← rd image 32 8
  let phentsize ← rd image 54 2
  let phnum ← rd image 56 2
  ensure (phentsize = phentSize)
    ("unexpected program-header entry size " ++ toString phentsize)
  let stop ← Prog.ofExcept (tableEnd phoff phnum)
  ensure (stop ≤ image.length) "program header table out of bounds"
  let segments ← checkedHeaders image phoff phnum 0 []
  if segments = [] then
    pure ⟨entry, segments⟩
  else do
    let found ← anyContains entry segments
    ensure found ("entry point " ++ hex entry ++ " lies outside every PT_LOAD segment")
    pure ⟨entry, segments⟩

end EtSoc.Elf

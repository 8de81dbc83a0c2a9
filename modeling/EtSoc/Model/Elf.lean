import EtSoc.Model.State

/-! # ELF images

The entry point and the loadable segments of a kernel image. -/

namespace EtSoc

open Program Bytes

namespace Elf

def emRiscv : ℕ := 243
def ptLoad : ℕ := 1
def phentSize : ℕ := 56

structure LoadSegment where
  fileOffset : ℕ
  vaddr : ℕ
  fileSize : ℕ
  memSize : ℕ
deriving DecidableEq, Repr

structure KernelImage where
  entry : ℕ
  segments : List LoadSegment
deriving DecidableEq, Repr

def fail {α : Type} (message : String) : Except Error α := .error (.elf message)

/-- The little-endian field of `width` bytes at `offset`. -/
def readField (image : List UInt8) (offset width : ℕ) : Except Error ℕ :=
  match slice? image offset width with
  | some field => .ok (leNat field)
  | none => fail "truncated ELF field"

def hex (n : ℕ) : String := "0x" ++ String.ofList (Nat.toDigits 16 n)

def checkedAdd (a b : ℕ) (message : String) : Except Error ℕ :=
  if a + b < 2 ^ 64 then .ok (a + b) else fail message

def require (p : Prop) [Decidable p] (message : String) : Except Error Unit :=
  if p then .ok () else fail message

/-- The first of `segments` that shares an address with `[vaddr, vaddr + memSize)`. -/
def overlapping (segments : List LoadSegment) (vaddr memSize : ℕ) : Option LoadSegment :=
  segments.find? fun s =>
    0 < memSize ∧ 0 < s.memSize ∧ vaddr < s.vaddr + s.memSize ∧ s.vaddr < vaddr + memSize

/-- The segment of the program header at `base`, if it is loadable. -/
def parseHeader (image : List UInt8) (base : ℕ) (segments : List LoadSegment) :
    Except Error (Option LoadSegment) := do
  let type ← readField image base 4
  if type ≠ ptLoad then
    return none
  else
    let fileOffset ← readField image (base + 8) 8
    let vaddr ← readField image (base + 16) 8
    let fileSize ← readField image (base + 32) 8
    let memSize ← readField image (base + 40) 8
    let fileEnd ← checkedAdd fileOffset fileSize "segment file range overflows"
    require (fileEnd ≤ image.length) "segment file range out of bounds"
    require (fileSize ≤ memSize) "segment mem_size smaller than file_size"
    let memEnd ← checkedAdd vaddr memSize "segment memory range overflows"
    match overlapping segments vaddr memSize with
    | some other =>
      fail ("segment [" ++ hex vaddr ++ ", " ++ hex memEnd ++ ") overlaps segment at "
        ++ hex other.vaddr)
    | none => return some ⟨fileOffset, vaddr, fileSize, memSize⟩

/-- The segments of the `n` program headers from `base` on, after `segments`. -/
def parseHeaders (image : List UInt8) : ℕ → ℕ → List LoadSegment → Except Error (List LoadSegment)
  | 0, _, segments => .ok segments
  | n + 1, base, segments => do
    let segment ← parseHeader image base segments
    parseHeaders image n (base + phentSize) (segments ++ segment.toList)

def containsEntry (entry : ℕ) (s : LoadSegment) : Bool :=
  s.vaddr ≤ entry ∧ entry < s.vaddr + s.memSize

/-- Parse a 64-bit little-endian RISC-V ELF image. -/
def parse (image : List UInt8) : Except Error KernelImage := do
  require (64 ≤ image.length) "image shorter than an ELF64 header"
  require (image.take 4 = [127, 69, 76, 70]) "bad ELF magic"
  require (image[4]? = some 2) "not an ELF64 image"
  require (image[5]? = some 1) "not a little-endian image"
  let machine ← readField image 18 2
  require (machine = emRiscv)
    ("unexpected machine " ++ toString machine ++ " (expected RISC-V " ++ toString emRiscv ++ ")")
  let entry ← readField image 24 8
  let phoff ← readField image 32 8
  let phentsize ← readField image 54 2
  let phnum ← readField image 56 2
  require (phentsize = phentSize)
    ("unexpected program-header entry size " ++ toString phentsize)
  let tableEnd ← checkedAdd phoff (phnum * phentSize) "program header table range overflows"
  require (tableEnd ≤ image.length) "program header table out of bounds"
  let segments ← parseHeaders image phnum phoff []
  require (segments = [] ∨ segments.any (containsEntry entry))
    ("entry point " ++ hex entry ++ " lies outside every PT_LOAD segment")
  return ⟨entry, segments⟩

end Elf

end EtSoc

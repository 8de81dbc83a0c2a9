import Mathlib.Data.Nat.Notation

/-! # Lossy decoding of UTF-8

Each maximal part of a malformed sequence becomes one replacement character. -/

namespace Utf8

def replacement : Char := Char.ofNat 0xFFFD

def continues (b : ℕ) : Bool := 0x80 ≤ b && b ≤ 0xBF

/-- A second byte that may follow `b` in a sequence of three bytes. -/
def second3 (b c : ℕ) : Bool :=
  (b = 0xE0 && 0xA0 ≤ c && c ≤ 0xBF) || (0xE1 ≤ b && b ≤ 0xEC && continues c)
    || (b = 0xED && 0x80 ≤ c && c ≤ 0x9F) || (0xEE ≤ b && b ≤ 0xEF && continues c)

/-- A second byte that may follow `b` in a sequence of four bytes. -/
def second4 (b c : ℕ) : Bool :=
  (b = 0xF0 && 0x90 ≤ c && c ≤ 0xBF) || (0xF1 ≤ b && b ≤ 0xF3 && continues c)
    || (b = 0xF4 && 0x80 ≤ c && c ≤ 0x8F)

/-- The first character of a string that starts with `b`, and how many bytes it takes; a
byte that is missing counts as zero. -/
def firstChar (b : ℕ) (rest : List UInt8) : Char × ℕ :=
  let byte (i : ℕ) : ℕ := (rest.getD i 0).toNat
  if b < 0x80 then
    (Char.ofNat b, 1)
  else if 0xC2 ≤ b && b ≤ 0xDF then
    if continues (byte 0) then (Char.ofNat (b % 32 * 64 + byte 0 % 64), 2) else (replacement, 1)
  else if 0xE0 ≤ b && b ≤ 0xEF then
    if second3 b (byte 0) then
      if continues (byte 1) then
        (Char.ofNat ((b % 16 * 64 + byte 0 % 64) * 64 + byte 1 % 64), 3)
      else
        (replacement, 2)
    else
      (replacement, 1)
  else if 0xF0 ≤ b && b ≤ 0xF4 then
    if second4 b (byte 0) then
      if continues (byte 1) then
        if continues (byte 2) then
          (Char.ofNat (((b % 8 * 64 + byte 0 % 64) * 64 + byte 1 % 64) * 64 + byte 2 % 64), 4)
        else
          (replacement, 3)
      else
        (replacement, 2)
    else
      (replacement, 1)
  else
    (replacement, 1)

/-- The characters of a byte string; `n` bounds their number. -/
def lossyChars : ℕ → List UInt8 → List Char
  | 0, _ => []
  | _, [] => []
  | n + 1, b :: bs =>
    let (c, len) := firstChar b.toNat bs
    c :: lossyChars n (bs.drop (len - 1))

def fromUtf8Lossy (bytes : List UInt8) : String := String.ofList (lossyChars bytes.length bytes)

example : fromUtf8Lossy [104, 0xC3, 0xA9, 0xF0, 0x9F, 0x41, 0xFF] = "hé\uFFFDA\uFFFD" := by
  decide +kernel

end Utf8

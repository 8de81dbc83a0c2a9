import Mathlib.Algebra.Group.Nat.Defs
import Mathlib.Logic.Function.Basic
import Mathlib.Data.Nat.Notation
import Mathlib.Data.List.Basic

/-! # Byte memories

Byte strings in a memory whose addresses wrap at `2 ^ 64`. -/

namespace ByteMemory

/-- The addresses of `len` bytes from `start` on. -/
def span (start : UInt64) (len : ℕ) : List UInt64 :=
  (List.range len).map fun k => start + UInt64.ofNat k

def write (mem : UInt64 → UInt8) (start : UInt64) : List UInt8 → UInt64 → UInt8
  | [] => mem
  | b :: bs => write (Function.update mem start b) (start + 1) bs

theorem ofNat_succ (start : UInt64) (k : ℕ) :
    start + UInt64.ofNat (k + 1) = start + 1 + UInt64.ofNat k := by
  rw [UInt64.ofNat_add, UInt64.add_comm (UInt64.ofNat k), ← UInt64.add_assoc]
  rfl

theorem ofNat_add (start : UInt64) (j k : ℕ) :
    start + UInt64.ofNat (j + k) = start + UInt64.ofNat j + UInt64.ofNat k := by
  rw [UInt64.ofNat_add, UInt64.add_assoc]

theorem add_ofNat_inj {start : UInt64} {j k : ℕ} (hj : j < 2 ^ 64) (hk : k < 2 ^ 64) :
    start + UInt64.ofNat j = start + UInt64.ofNat k ↔ j = k := by
  rw [UInt64.add_right_inj, ← UInt64.toNat_inj, UInt64.toNat_ofNat_of_lt' hj,
    UInt64.toNat_ofNat_of_lt' hk]

theorem span_add (start : UInt64) (m n : ℕ) :
    span start (m + n) = span start m ++ span (start + UInt64.ofNat m) n := by
  simp only [span, List.range_add, List.map_append, List.map_map]
  congr 1
  exact List.map_congr_left fun k _ => ofNat_add ..

theorem write_append (mem : UInt64 → UInt8) (start : UInt64) (xs ys : List UInt8) :
    write mem start (xs ++ ys) = write (write mem start xs) (start + UInt64.ofNat xs.length) ys := by
  induction xs generalizing mem start with
  | nil =>
    rw [List.length_nil, show start + UInt64.ofNat 0 = start from UInt64.add_zero start]
    rfl
  | cons x xs ih => rw [List.cons_append, write, write, ih, List.length_cons, ofNat_succ]

theorem write_of_ne {mem : UInt64 → UInt8} {start addr : UInt64} {bs : List UInt8}
    (h : ∀ k < bs.length, addr ≠ start + UInt64.ofNat k) : write mem start bs addr = mem addr := by
  induction bs generalizing mem start with
  | nil => rfl
  | cons b bs ih =>
    rw [List.length_cons] at h
    have hne : addr ≠ start := by simpa using h 0 (Nat.succ_pos _)
    rw [write, ih fun k hk => ofNat_succ start k ▸ h (k + 1) (Nat.succ_lt_succ hk),
      Function.update_of_ne hne]

theorem write_apply {mem : UInt64 → UInt8} {start : UInt64} {bs : List UInt8}
    (hlen : bs.length ≤ 2 ^ 64) {k : ℕ} (hk : k < bs.length) :
    write mem start bs (start + UInt64.ofNat k) = bs[k] := by
  induction bs generalizing mem start k with
  | nil => exact absurd hk (Nat.not_lt_zero k)
  | cons b bs ih =>
    rw [List.length_cons] at hlen hk
    cases k with
    | zero =>
      rw [write, write_of_ne]
      · simp
      · intro j hj
        rw [← ofNat_succ, Ne, add_ofNat_inj (by omega) (by omega)]
        omega
    | succ k => rw [write, ofNat_succ, ih (by omega) (by omega), List.getElem_cons_succ]

end ByteMemory

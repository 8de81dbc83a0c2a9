import Mathlib.Algebra.Group.Nat.Defs
import Mathlib.Data.Nat.Notation
import Mathlib.Data.List.Basic

/-! # Byte strings

Little-endian integers and slices of byte lists. -/

namespace Bytes

/-- The value of a little-endian byte string. -/
def leNat : List UInt8 → ℕ
  | [] => 0
  | b :: bs => b.toNat + 256 * leNat bs

theorem leNat_lt (bs : List UInt8) : leNat bs < 256 ^ bs.length := by
  induction bs with
  | nil => simp [leNat]
  | cons b bs ih =>
    have hb : b.toNat < 256 := b.toNat_lt
    rw [leNat, List.length_cons, Nat.pow_succ]
    omega

/-- The `n` low bytes of a number, least significant first. -/
def leBytes : ℕ → ℕ → List UInt8
  | 0, _ => []
  | n + 1, value => UInt8.ofNat value :: leBytes n (value / 256)

@[simp] theorem length_leBytes (n value : ℕ) : (leBytes n value).length = n := by
  induction n generalizing value with
  | zero => rfl
  | succ n ih => rw [leBytes, List.length_cons, ih]

theorem leNat_leBytes (n value : ℕ) : leNat (leBytes n value) = value % 256 ^ n := by
  induction n generalizing value with
  | zero => simp [leBytes, leNat, Nat.mod_one]
  | succ n ih =>
    have hsplit : value % (256 * 256 ^ n) = value % 256 + 256 * (value / 256 % 256 ^ n) :=
      Nat.mod_mul
    rw [leBytes, leNat, ih, UInt8.toNat_ofNat',
      show 256 ^ (n + 1) = 256 * 256 ^ n from Nat.pow_succ', hsplit]

/-- Read a number of `n` bytes off the front of a string. -/
def readLe? (n : ℕ) (bs : List UInt8) : Option (ℕ × List UInt8) :=
  if n ≤ bs.length then some (leNat (bs.take n), bs.drop n) else none

theorem readLe?_append {n value : ℕ} (h : value < 256 ^ n) (rest : List UInt8) :
    readLe? n (leBytes n value ++ rest) = some (value, rest) := by
  have hlen := length_leBytes n value
  rw [readLe?, if_pos (by simp), List.take_left' hlen, List.drop_left' hlen, leNat_leBytes,
    Nat.mod_eq_of_lt h]

/-- The `len` bytes of `bs` from position `start`, or nothing when they are not all there. -/
def slice? (bs : List UInt8) (start len : ℕ) : Option (List UInt8) :=
  if start + len ≤ bs.length then some ((bs.drop start).take len) else none

theorem slice?_eq_some {bs out : List UInt8} {start len : ℕ} :
    slice? bs start len = some out ↔
      start + len ≤ bs.length ∧ (bs.drop start).take len = out := by
  unfold slice?
  split <;> simp [*]

/-- A string that starts another one from `off` on, cut in two. -/
theorem append_isPrefix_drop {bs xs ys : List UInt8} {off : ℕ} :
    xs ++ ys <+: bs.drop off ↔ xs <+: bs.drop off ∧ ys <+: bs.drop (off + xs.length) := by
  rw [← List.drop_drop]
  constructor
  · rintro ⟨zs, h⟩
    rw [List.append_assoc] at h
    rw [← h, List.drop_left]
    exact ⟨List.prefix_append .., List.prefix_append ..⟩
  · rintro ⟨⟨zs, h⟩, hys⟩
    rw [← h, List.drop_left] at hys
    rw [← h]
    exact (List.prefix_append_right_inj xs).2 hys

end Bytes

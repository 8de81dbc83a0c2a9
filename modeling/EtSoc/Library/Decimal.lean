import Mathlib.Data.Nat.Digits.Lemmas

/-! # Decimal numerals

The canonical decimal text of a natural number. -/

namespace Decimal

def digit (d : ℕ) : UInt8 := UInt8.ofNat (48 + d)

/-- The digits of `n`, most significant first. -/
def decimal (n : ℕ) : List UInt8 :=
  if n = 0 then [digit 0] else (Nat.digits 10 n).reverse.map digit

theorem decimal_of_lt {n : ℕ} (h : n < 10) : decimal n = [digit n] := by
  unfold decimal
  split
  · rename_i h0
    rw [h0]
  · rename_i h0
    rw [Nat.digits_of_lt 10 n h0 h]
    rfl

theorem decimal_of_ge {n : ℕ} (h : 10 ≤ n) : decimal n = decimal (n / 10) ++ [digit (n % 10)] := by
  have hdiv : n / 10 ≠ 0 := by omega
  rw [decimal, decimal, if_neg (by omega), if_neg hdiv,
    Nat.digits_eq_cons_digits_div (by omega) (by omega), List.reverse_cons, List.map_append]
  rfl

/-- A numeral other than that of zero has no leading zero. -/
theorem head_decimal {n : ℕ} (h : n ≠ 0) : ∃ d, d ≠ 0 ∧ d < 10 ∧ (decimal n).head? = some (digit d) := by
  have hne : Nat.digits 10 n ≠ [] := Nat.digits_ne_nil_iff_ne_zero.2 h
  refine ⟨(Nat.digits 10 n).getLast hne, Nat.getLast_digit_ne_zero 10 h,
    Nat.digits_lt_base (by omega) (List.getLast_mem hne), ?_⟩
  rw [decimal, if_neg h, List.head?_map, List.head?_reverse, List.getLast?_eq_some_getLast hne]
  rfl

/-- The number of a numeral. -/
def value (text : List UInt8) : ℕ := text.foldl (fun acc b => 10 * acc + (b.toNat - 48)) 0

theorem toNat_digit {d : ℕ} (h : d < 10) : (digit d).toNat = 48 + d := by
  rw [digit, UInt8.toNat_ofNat', Nat.mod_eq_of_lt (by omega)]

theorem value_decimal (n : ℕ) : value (decimal n) = n := by
  induction n using Nat.strongRecOn with
  | ind n ih =>
    by_cases h : n < 10
    · rw [decimal_of_lt h, value, List.foldl_cons, List.foldl_nil, toNat_digit h]
      omega
    · have hrest := ih (n / 10) (by omega)
      rw [value] at hrest
      rw [decimal_of_ge (by omega), value, List.foldl_append, hrest, List.foldl_cons,
        List.foldl_nil, toNat_digit (Nat.mod_lt n (by omega))]
      omega

end Decimal

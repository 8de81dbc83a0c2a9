import EtSoc.Library.Decimal
import EtSoc.Model.Message

/-! # What a trace message says -/

namespace EtSoc.Message

open Decimal

/-! ## Digits -/

theorem digit_eq (v : UInt64) : 48 + (v % 10).toUInt8 = digit (v.toNat % 10) := by
  apply UInt8.toNat.inj
  rw [toNat_digit (Nat.mod_lt _ (by omega))]
  simp only [UInt8.toNat_add, UInt64.toNat_toUInt8, UInt64.toNat_mod, UInt8.reduceToNat,
    UInt64.reduceToNat]
  omega

/-- The digits of a number are stored if there is room for them. -/
theorem digits_eq {room : ℕ} {v : UInt64} (hroom : v.toNat < 10 ^ room) (hpos : 0 < room)
    (tmp : List UInt8) : digits room v tmp = some (decimal v.toNat ++ tmp) := by
  induction room generalizing v tmp with
  | zero => omega
  | succ room ih =>
    have hdiv : (v / 10).toNat = v.toNat / 10 := UInt64.toNat_div v 10
    rw [digits]
    split
    · rename_i hzero
      have hlt : v.toNat < 10 := by
        have := congrArg UInt64.toNat hzero
        rw [hdiv] at this
        simp only [UInt64.reduceToNat] at this
        omega
      rw [digit_eq, decimal_of_lt hlt, Nat.mod_eq_of_lt hlt]
      rfl
    · rename_i hzero
      have hge : 10 ≤ v.toNat := by
        by_contra hlt
        refine hzero (UInt64.toNat.inj ?_)
        rw [hdiv, UInt64.toNat_zero]
        omega
      have hrest : (v / 10).toNat < 10 ^ room := by
        rw [hdiv]
        rw [Nat.pow_succ] at hroom
        omega
      have hmore : 0 < room := by
        rcases Nat.eq_zero_or_pos room with rfl | h
        · omega
        · exact h
      rw [ih hrest hmore, digit_eq, hdiv, decimal_of_ge hge, List.append_assoc]
      rfl

/-! ## Text -/

/-- The buffer holds the first bytes of `text`, as many as fit. -/
structure Holds (m : MsgBuf) (text : List UInt8) : Prop where
  size : m.buf.length = 192
  len : m.len = min 192 text.length
  take : m.buf.take m.len = text.take 192

theorem Holds.new : Holds .new [] := ⟨List.length_replicate .., rfl, rfl⟩

theorem Holds.asSlice {m : MsgBuf} {text : List UInt8} (h : Holds m text) :
    m.asSlice = some (text.take 192) := by
  have hle : m.len ≤ m.buf.length := by
    have := h.size
    have := h.len
    omega
  rw [MsgBuf.asSlice, if_pos hle, h.take]

/-- A byte that fits is appended. -/
theorem Holds.push {m : MsgBuf} {text : List UInt8} (h : Holds m text) (hlt : m.len < m.buf.length)
    (b : UInt8) : ∃ m', m.push b = some m' ∧ Holds m' (text ++ [b]) := by
  have hsize := h.size
  have hlen : m.len = text.length := by
    have := h.len
    omega
  have htext : text.take 192 = text := List.take_of_length_le (by omega)
  have htake := h.take
  rw [htext] at htake
  have hpush : (m.buf.set m.len b).take (m.len + 1) = text ++ [b] := by
    rw [List.take_add_one, List.take_set_of_le (Nat.le_refl _), htake,
      List.getElem?_set_self hlt]
    rfl
  refine ⟨⟨m.buf.set m.len b, m.len + 1⟩, by rw [MsgBuf.push, if_pos hlt], ?_, ?_, ?_⟩
  · change (m.buf.set m.len b).length = 192
    rw [List.length_set, hsize]
  · change m.len + 1 = min 192 (text ++ [b]).length
    rw [List.length_append, List.length_singleton]
    omega
  · change (m.buf.set m.len b).take (m.len + 1) = (text ++ [b]).take 192
    rw [hpush, List.take_of_length_le]
    rw [List.length_append, List.length_singleton]
    omega

/-- Text is appended until the buffer is full. -/
theorem Holds.str {m : MsgBuf} {text : List UInt8} (h : Holds m text) (bs : List UInt8) :
    ∃ m', m.str bs = some m' ∧ Holds m' (text ++ bs) := by
  induction bs generalizing m text with
  | nil => exact ⟨m, rfl, by rwa [List.append_nil]⟩
  | cons b bs ih =>
    rw [MsgBuf.str]
    split
    · rename_i hlt
      obtain ⟨m₁, hm₁, h₁⟩ := h.push hlt b
      obtain ⟨m₂, hm₂, h₂⟩ := ih h₁
      refine ⟨m₂, ?_, by simpa [List.append_assoc] using h₂⟩
      rw [hm₁]
      exact hm₂
    · rename_i hfull
      have hsize := h.size
      have hlen := h.len
      refine ⟨m, rfl, hsize, ?_, ?_⟩
      · rw [List.length_append, List.length_cons]
        omega
      · rw [h.take, List.take_append_of_le_length (by omega)]

def Call.text : Call → List UInt8
  | .str s => s
  | .u64 v => decimal v.toNat

theorem Holds.call {m : MsgBuf} {text : List UInt8} (h : Holds m text) (c : Call) :
    ∃ m', m.call c = some m' ∧ Holds m' (text ++ c.text) := by
  cases c with
  | str s => exact h.str s
  | u64 v =>
    obtain ⟨m', hm', h'⟩ := h.str (decimal v.toNat)
    refine ⟨m', ?_, h'⟩
    have hlt : v.toNat < 10 ^ 20 := v.toNat_lt.trans (by omega)
    have hdigits := digits_eq hlt (by omega) []
    rw [List.append_nil] at hdigits
    rw [MsgBuf.call, MsgBuf.u64, hdigits]
    exact hm'

theorem Holds.calls {m : MsgBuf} {text : List UInt8} (h : Holds m text) (calls : List Call) :
    ∃ m', calls.foldlM MsgBuf.call m = some m' ∧ Holds m' (text ++ calls.flatMap Call.text) := by
  induction calls generalizing m text with
  | nil => exact ⟨m, rfl, by rwa [List.flatMap_nil, List.append_nil]⟩
  | cons c calls ih =>
    obtain ⟨m₁, hm₁, h₁⟩ := h.call c
    obtain ⟨m₂, hm₂, h₂⟩ := ih h₁
    refine ⟨m₂, ?_, by rwa [List.flatMap_cons, ← List.append_assoc]⟩
    rw [List.foldlM_cons, hm₁]
    exact hm₂

theorem compose_holds (calls : List Call) :
    ∃ m, compose calls = some m ∧ Holds m (calls.flatMap Call.text) := by
  obtain ⟨m, hm, h⟩ := Holds.new.calls calls
  exact ⟨m, hm, by rwa [List.nil_append] at h⟩

/-- Composing a message and taking it never fails. -/
theorem compose_bind_asSlice (calls : List Call) :
    (compose calls).bind MsgBuf.asSlice = some ((calls.flatMap Call.text).take 192) := by
  obtain ⟨m, hm, h⟩ := compose_holds calls
  rw [hm, Option.bind_some, h.asSlice]

/-- A message is made of the first bytes of what was appended, as many as fit; the calls made
once it is full change nothing. -/
theorem compose_asSlice (calls : List Call) : ∃ m, compose calls = some m ∧
    m.asSlice = some ((calls.flatMap Call.text).take 192) ∧
    ((calls.flatMap Call.text).length ≤ 192 → m.asSlice = some (calls.flatMap Call.text)) ∧
    (192 ≤ (calls.flatMap Call.text).length → ∀ more, ∃ m', compose (calls ++ more) = some m' ∧
      m'.asSlice = m.asSlice) := by
  obtain ⟨m, hm, h⟩ := compose_holds calls
  refine ⟨m, hm, h.asSlice, fun hfits => ?_, fun hfull more => ?_⟩
  · rw [h.asSlice, List.take_of_length_le hfits]
  · obtain ⟨m', hm', h'⟩ := h.calls more
    refine ⟨m', ?_, ?_⟩
    · rw [compose, List.foldlM_append]
      change (compose calls >>= _) = _
      rw [hm]
      exact hm'
    · rw [h'.asSlice, h.asSlice, List.take_append_of_le_length hfull]

example : (compose [.str [101, 116], .u64 42]).bind MsgBuf.asSlice = some [101, 116, 52, 50] := by
  decide +kernel

end EtSoc.Message

import EtSoc.Library.PowersOfTwo
import EtSoc.Model.CacheOps
import Mathlib.Data.List.Count

/-! # The lines that cache operations name -/

namespace EtSoc.CacheOps

open PowersOfTwo

variable {dst : CacheDest} {line rem addr len : UInt64}

theorem csrEnc_toNat {hwCount : UInt64} (hline : line.toNat < 2 ^ 48) (halign : 64 ∣ line.toNat)
    (hhw : hwCount.toNat ≤ 15) :
    (csrEnc dst line hwCount).toNat = 2 ^ 58 * dst.toU64.toNat + (line.toNat + hwCount.toNat) := by
  obtain ⟨k, hk⟩ := halign
  have hva : (line &&& 0x0000FFFFFFFFFFC0).toNat = line.toNat := by
    rw [UInt64.toNat_and, show (0x0000FFFFFFFFFFC0 : UInt64).toNat = 2 ^ 48 - 2 ^ 6 from rfl,
      and_two_pow_sub hline (by omega)]
    omega
  have hdst : (dst.toU64 <<< 58).toNat = 2 ^ 58 * dst.toU64.toNat := by
    cases dst <;> rfl
  have hlow : line.toNat ||| hwCount.toNat = line.toNat + hwCount.toNat := by
    rw [hk, show 64 * k = 2 ^ 6 * k from rfl, Nat.two_pow_add_eq_or_of_lt (by omega)]
  rw [csrEnc, UInt64.toNat_or, UInt64.toNat_or, hva, hdst, Nat.or_assoc, hlow,
    Nat.two_pow_add_eq_or_of_lt (by omega)]

/-- The fields of a value do not overlap. -/
theorem fields_of_value {w : CsrWrite} {d l c : ℕ} (hvalue : w.value.toNat = 2 ^ 58 * d + (l + c))
    (hd : d < 4) (hl : l < 2 ^ 48) (halign : 64 ∣ l) (hc : c ≤ 15) :
    w.dst = d ∧ w.va = l ∧ w.hwCount = c := by
  obtain ⟨k, rfl⟩ := halign
  rw [CsrWrite.dst, CsrWrite.va, CsrWrite.hwCount, hvalue]
  omega

/-- A write of the range operations, which names `count` lines from `first` on. -/
structure Names (csr : UInt16) (dst : CacheDest) (first count : ℕ) (w : CsrWrite) : Prop where
  csr : w.csr = csr
  value : ∃ line hwCount : UInt64, w.value = csrEnc dst line hwCount ∧ 64 ∣ line.toNat ∧
    hwCount.toNat ≤ 15
  target : w.dst = dst.toU64.toNat
  lines : w.lines = List.range' first count

variable {csr : UInt16}

theorem names_of_csrEnc {hwCount : UInt64} (hline : line.toNat < 2 ^ 48)
    (halign : 64 ∣ line.toNat) (hhw : hwCount.toNat ≤ 15) :
    Names csr dst (line.toNat / 64) (hwCount.toNat + 1) ⟨csr, csrEnc dst line hwCount, 64⟩ := by
  have hd : dst.toU64.toNat < 4 := by cases dst <;> decide
  generalize hw : (⟨csr, csrEnc dst line hwCount, 64⟩ : CsrWrite) = w
  have hvalue : w.value = csrEnc dst line hwCount := by rw [← hw]
  have hstride : w.stride = 64 := by
    rw [CsrWrite.stride, ← hw]
    simp
  have henc : (csrEnc dst line hwCount).toNat = _ := csrEnc_toNat hline halign hhw
  rw [← hvalue] at henc
  obtain ⟨hdst, hva, hcount⟩ := fields_of_value henc hd hline halign hhw
  refine ⟨by rw [← hw], ⟨line, hwCount, hvalue, halign, hhw⟩, hdst, ?_⟩
  rw [CsrWrite.lines, hva, hcount, hstride, List.range'_eq_map_range]
  exact List.map_congr_left fun i _ => by omega

/-! ## The range operations -/

theorem toNat_lineStart (addr : UInt64) : (addr &&& ~~~63).toNat = 64 * (addr.toNat / 64) := by
  rw [UInt64.toNat_and, show (~~~63 : UInt64).toNat = 2 ^ 64 - 2 ^ 6 from rfl,
    and_two_pow_sub addr.toNat_lt (by omega)]
  rfl

/-- The lines of a range that is not empty are those from its first to its last byte. -/
theorem lineCount_toNat (h : addr.toNat + len.toNat + 63 < 2 ^ 64) (hlen : len ≠ 0) :
    (lineCount addr len).toNat = (addr.toNat + len.toNat - 1) / 64 + 1 - addr.toNat / 64 := by
  have hpos : 0 < len.toNat := by
    rcases Nat.eq_zero_or_pos len.toNat with hzero | hpos
    · exact absurd (UInt64.toNat.inj hzero) hlen
    · exact hpos
  have hsum : (addr + len + 63).toNat = addr.toNat + len.toNat + 63 := by
    rw [UInt64.toNat_add, UInt64.toNat_add, show (63 : UInt64).toNat = 63 from rfl]
    omega
  have hle : (addr &&& ~~~63) ≤ ((addr + len + 63) &&& ~~~63) := by
    rw [UInt64.le_iff_toNat_le, toNat_lineStart, toNat_lineStart, hsum]
    omega
  rw [lineCount, if_neg hlen]
  simp only [UInt64.toNat_shiftRight, UInt64.toNat_sub_of_le _ _ hle, toNat_lineStart, hsum,
    Nat.shiftRight_eq_div_pow]
  rw [show (6 : UInt64).toNat % 64 = 6 from rfl]
  omega

/-- The loop names all lines in order, by writes each of which is well formed. -/
theorem batches_spec {hw : UInt64 → UInt64 → CsrWrite}
    (hhw : ∀ line hwCount, hw line hwCount = ⟨csr, csrEnc dst line hwCount, 64⟩) (n : ℕ) :
    ∀ line rem : UInt64, rem.toNat ≤ n → 64 ∣ line.toNat →
      line.toNat + 64 * rem.toNat ≤ 2 ^ 48 →
      (∀ w ∈ batches hw n line rem, ∃ first count, Names csr dst first count w) ∧
      (batches hw n line rem).flatMap CsrWrite.lines =
        List.range' (line.toNat / 64) rem.toNat := by
  induction n with
  | zero =>
    intro line rem hn _ _
    rw [show rem.toNat = 0 by omega]
    exact ⟨by simp [batches], rfl⟩
  | succ n ih =>
    intro line rem hn halign hend
    rw [batches]
    split
    · rename_i hpos
      rw [UInt64.lt_iff_toNat_lt, UInt64.toNat_zero] at hpos
      obtain ⟨k, hk⟩ := halign
      have hmin : (min rem 16).toNat = min rem.toNat 16 := by
        rw [UInt64.toNat_min]
        rfl
      have hone : (1 : UInt64) ≤ min rem 16 := by
        rw [UInt64.le_iff_toNat_le, hmin, UInt64.toNat_one]
        omega
      have hbatch : (min rem 16 - 1).toNat = min rem.toNat 16 - 1 := by
        rw [UInt64.toNat_sub_of_le _ _ hone, hmin]
        rfl
      have hrem : (rem - min rem 16).toNat = rem.toNat - min rem.toNat 16 := by
        rw [UInt64.toNat_sub_of_le, hmin]
        rw [UInt64.le_iff_toNat_le, hmin]
        exact Nat.min_le_left ..
      have hline : (line + min rem 16 * 64).toNat = line.toNat + 64 * min rem.toNat 16 := by
        rw [UInt64.toNat_add, UInt64.toNat_mul, hmin, show (64 : UInt64).toNat = 64 from rfl]
        omega
      have hnames : Names csr dst (line.toNat / 64) (min rem.toNat 16) (hw line (min rem 16 - 1)) := by
        have hcount : min rem.toNat 16 = (min rem 16 - 1).toNat + 1 := by omega
        rw [hhw, hcount]
        exact names_of_csrEnc (by omega) ⟨k, hk⟩ (by omega)
      obtain ⟨hall, hlines⟩ := ih (line + min rem 16 * 64) (rem - min rem 16) (by omega)
        ⟨k + min rem.toNat 16, by omega⟩ (by omega)
      refine ⟨fun w hw' => ?_, ?_⟩
      · rcases List.mem_cons.1 hw' with rfl | hw'
        · exact ⟨_, _, hnames⟩
        · exact hall w hw'
      · rw [List.flatMap_cons, hlines, hnames.lines, hline, hrem,
          show (line.toNat + 64 * min rem.toNat 16) / 64 = line.toNat / 64 + min rem.toNat 16 by omega,
          List.range'_append_1]
        congr 1
        omega
    · rename_i hzero
      rw [UInt64.lt_iff_toNat_lt, UInt64.toNat_zero] at hzero
      rw [show rem.toNat = 0 by omega]
      exact ⟨by simp, rfl⟩

/-- The lines of a range that starts with one. -/
theorem linesOf_batches {hw : UInt64 → UInt64 → CsrWrite}
    (hhw : ∀ line hwCount, hw line hwCount = ⟨csr, csrEnc dst line hwCount, 64⟩)
    (halign : 64 ∣ addr.toNat) (h : addr.toNat + len.toNat ≤ 2 ^ 48) :
    linesOf (if lineCount addr len = 0 then []
      else batches hw (lineCount addr len).toNat (addr &&& ~~~63) (lineCount addr len)) =
      List.range' (addr.toNat / 64) ((len.toNat + 63) / 64) := by
  by_cases hlen : len = 0
  · subst hlen
    rw [if_pos (by rw [lineCount, if_pos rfl])]
    rfl
  · have hpos : 0 < len.toNat := Nat.pos_of_ne_zero fun hzero => hlen (UInt64.toNat.inj hzero)
    have hcount : (lineCount addr len).toNat = (len.toNat + 63) / 64 := by
      rw [lineCount_toNat (by omega) hlen]
      omega
    have hstart := toNat_lineStart addr
    rw [if_neg fun hzero => by
      rw [hzero, UInt64.toNat_zero] at hcount
      omega]
    obtain ⟨-, hlines⟩ := batches_spec hhw (lineCount addr len).toNat (addr &&& ~~~63)
      (lineCount addr len) (Nat.le_refl _) ⟨_, hstart⟩ (by omega)
    rw [linesOf, hlines, hstart, hcount, Nat.mul_div_cancel_left _ (by omega)]

/-- Some byte of the range lies in the line. -/
def Touches (addr len : UInt64) (line : ℕ) : Prop :=
  ∃ x, addr.toNat ≤ x ∧ x < addr.toNat + len.toNat ∧ x / 64 = line

/-- The writes name the lines that the range touches, each once, and no others. -/
structure Covers (csr : UInt16) (dst : CacheDest) (addr len : UInt64) (ws : List CsrWrite) :
    Prop where
  once : ∀ line, Touches addr len line → (ws.flatMap CsrWrite.lines).count line = 1
  only : ∀ line, line ∈ ws.flatMap CsrWrite.lines → Touches addr len line
  fields : ∀ w ∈ ws, w.csr = csr ∧ w.dst = dst.toU64.toNat ∧ ∃ line hwCount : UInt64,
    w.value = csrEnc dst line hwCount ∧ 64 ∣ line.toNat ∧ hwCount.toNat ≤ 15
  empty : len = 0 → ws = []

theorem covers_of_batches {hw : UInt64 → UInt64 → CsrWrite}
    (hhw : ∀ line hwCount, hw line hwCount = ⟨csr, csrEnc dst line hwCount, 64⟩)
    (h : addr.toNat + len.toNat + 63 < 2 ^ 48) :
    Covers csr dst addr len (if lineCount addr len = 0 then []
      else batches hw (lineCount addr len).toNat (addr &&& ~~~63) (lineCount addr len)) := by
  by_cases hlen : len = 0
  · subst hlen
    have hnone : ∀ line, ¬Touches addr 0 line := by
      rintro line ⟨x, hlo, hhi, -⟩
      rw [UInt64.toNat_zero] at hhi
      omega
    rw [if_pos (by rw [lineCount, if_pos rfl])]
    exact ⟨fun line ht => absurd ht (hnone line), by simp, by simp, fun _ => rfl⟩
  · have hcount : (lineCount addr len).toNat = _ := lineCount_toNat (by omega) hlen
    have hpos : 0 < len.toNat := by
      rcases Nat.eq_zero_or_pos len.toNat with hzero | hpos
      · exact absurd (UInt64.toNat.inj hzero) hlen
      · exact hpos
    rw [if_neg fun hzero => by
      rw [hzero, UInt64.toNat_zero] at hcount
      omega]
    have hstart := toNat_lineStart addr
    obtain ⟨hall, hlines⟩ := batches_spec hhw (lineCount addr len).toNat (addr &&& ~~~63)
      (lineCount addr len) (Nat.le_refl _) ⟨_, hstart⟩ (by omega)
    rw [hstart, Nat.mul_div_cancel_left _ (by omega)] at hlines
    have htouches : ∀ line, Touches addr len line ↔
        addr.toNat / 64 ≤ line ∧ line ≤ (addr.toNat + len.toNat - 1) / 64 := by
      intro line
      constructor
      · rintro ⟨x, hlo, hhi, rfl⟩
        omega
      · rintro ⟨hlo, hhi⟩
        exact ⟨max addr.toNat (64 * line), by omega, by omega, by omega⟩
    refine ⟨fun line ht => ?_, fun line hmem => ?_, fun w hw' => ?_, fun hzero => absurd hzero hlen⟩
    · rw [hlines, List.Nodup.count List.nodup_range']
      obtain ⟨hlo, hhi⟩ := (htouches line).1 ht
      rw [if_pos]
      rw [List.mem_range'_1, hcount]
      omega
    · rw [hlines, List.mem_range'_1, hcount] at hmem
      exact (htouches line).2 (by omega)
    · obtain ⟨first, count, hw'⟩ := hall w hw'
      exact ⟨hw'.csr, hw'.target, hw'.value⟩

/-- A range operation names the lines of its range, each once, and no others. -/
theorem range_covers (dst : CacheDest) {addr len : UInt64}
    (h : addr.toNat + len.toNat + 63 < 2 ^ 48) :
    Covers csrEvictVa dst addr len (doEvict dst addr len) ∧
      Covers csrFlushVa dst addr len (doFlush dst addr len) :=
  ⟨covers_of_batches (fun _ _ => rfl) h, covers_of_batches (fun _ _ => rfl) h⟩

/-- 34 lines in three batches, for 2100 bytes that are not aligned. -/
theorem range_covers_unaligned :
    (doEvict .mem 0x110 2100).map CsrWrite.lines =
        [List.range' 4 16, List.range' 20 16, List.range' 36 2] ∧
      Covers csrEvictVa .mem 0x110 2100 (doEvict .mem 0x110 2100) ∧
      Covers csrFlushVa .mem 0x110 2100 (doFlush .mem 0x110 2100) :=
  ⟨by decide +kernel, range_covers .mem (by decide)⟩

end EtSoc.CacheOps

import EtSoc.Model.Tensor

/-! # The words of the tensor instructions

Whatever a kernel passes, each operand but an odd stride ends up in its own field, and what fits is
read back. -/

namespace EtSoc.Tensor

open BitFields

/-! ## Words in parts -/

theorem toNat_put (offset width : ℕ) {v mask shift : UInt64} (hmask : mask.toNat = 2 ^ width - 1)
    (hshift : shift.toNat = offset) (hlt : offset < 64) (hle : offset + width ≤ 64) :
    ((v &&& mask) <<< shift).toNat = Field.put ⟨offset, width⟩ v.toNat := by
  have hmod : v.toNat % 2 ^ width < 2 ^ width := Nat.mod_lt _ (Nat.two_pow_pos _)
  have hput : Field.put ⟨offset, width⟩ v.toNat < 2 ^ 64 := Field.put_lt hle _
  rw [UInt64.toNat_shiftLeft, UInt64.toNat_and, hmask, Nat.and_two_pow_sub_one_eq_mod, hshift,
    Nat.mod_eq_of_lt hlt]
  exact Nat.mod_eq_of_lt hput

theorem toNat_low (width : ℕ) {v mask : UInt64} (hmask : mask.toNat = 2 ^ width - 1) :
    (v &&& mask).toNat = Field.put ⟨0, width⟩ v.toNat := by
  rw [UInt64.toNat_and, hmask, Nat.and_two_pow_sub_one_eq_mod, Field.put, Nat.shiftLeft_zero]

theorem toNat_flag (offset : ℕ) (b : Bool) {shift : UInt64} (hshift : shift.toNat = offset)
    (hlt : offset < 64) : (b.toUInt64 <<< shift).toNat = Field.put ⟨offset, 1⟩ b.toNat := by
  have hmask : b.toUInt64 &&& 1 = b.toUInt64 := by cases b <;> rfl
  have hput := toNat_put offset 1 (v := b.toUInt64) (show (1 : UInt64).toNat = 2 ^ 1 - 1 from rfl)
    hshift hlt (by omega)
  rw [hmask] at hput
  rw [hput]
  cases b <;> rfl

theorem toNat_bit (b : Bool) : b.toUInt64.toNat = Field.put ⟨0, 1⟩ b.toNat := by
  cases b <;> rfl

theorem toNat_mod_two (b : Bool) : b.toNat % 2 = b.toNat := by
  cases b <;> rfl

theorem toNat_addr47_6 (addr : UInt64) :
    (addr &&& addrField47_6).toNat = Field.put ⟨6, 42⟩ (addr.toNat / 64) := by
  refine Nat.eq_of_testBit_eq fun i => ?_
  rw [UInt64.toNat_and, Nat.testBit_and, Field.testBit_put,
    show addrField47_6.toNat = (2 ^ 42 - 1) <<< 6 from rfl, Nat.testBit_shiftLeft,
    Nat.testBit_two_pow_sub_one, ← Nat.shiftRight_eq_div_pow addr.toNat 6,
    Nat.testBit_shiftRight]
  by_cases hi : 6 ≤ i
  · rw [Nat.add_sub_cancel' hi]
    simp [hi, Bool.and_comm]
  · simp [hi]

theorem toNat_addr47_4 (addr : UInt64) :
    (addr &&& addrField47_4).toNat = Field.put ⟨4, 44⟩ (addr.toNat / 16) := by
  refine Nat.eq_of_testBit_eq fun i => ?_
  rw [UInt64.toNat_and, Nat.testBit_and, Field.testBit_put,
    show addrField47_4.toNat = (2 ^ 44 - 1) <<< 4 from rfl, Nat.testBit_shiftLeft,
    Nat.testBit_two_pow_sub_one, ← Nat.shiftRight_eq_div_pow addr.toNat 4,
    Nat.testBit_shiftRight]
  by_cases hi : 4 ≤ i
  · rw [Nat.add_sub_cancel' hi]
    simp [hi, Bool.and_comm]
  · simp [hi]

/-! ## The words in fields -/

/-- The fields of a word have the given values, and the bits that none of them takes are zero. -/
def Reads (w : UInt64) (layout : List Field) (values : List ℕ) : Prop :=
  ∀ offset width, Laid ⟨offset, width⟩ layout →
    field w offset width = lookup ⟨offset, width⟩ (layout.zip values)

theorem Reads.of_pack {w : UInt64} {layout : List Field} {values : List ℕ}
    (hlen : layout.length = values.length) (h : w.toNat = pack (layout.zip values)) :
    Reads w layout values := by
  intro offset width hlaid
  rw [field, h, get_pack]
  rwa [List.map_fst_zip hlen.le]

theorem setTensorMask_reads (mask : UInt16) :
    Reads (setTensorMask mask).xs [⟨0, 16⟩] [mask.toNat] := by
  apply Reads.of_pack rfl
  simp only [setTensorMask, pack, List.zip_cons_cons, List.zip_nil_left, Nat.or_zero, Field.put,
    Nat.shiftLeft_zero, UInt16.toNat_toUInt64]
  exact (Nat.mod_eq_of_lt mask.toNat_lt).symm

theorem tensorLoad_reads (addr : UInt64) (start rows : UInt8) (id : Bool) (stride : UInt64) :
    Reads (tensorLoad addr start rows id stride).xs [⟨53, 6⟩, ⟨6, 42⟩, ⟨0, 4⟩]
      [start.toNat, addr.toNat / 64, rows.toNat] := by
  apply Reads.of_pack rfl
  simp only [tensorLoad, UInt64.toNat_or, pack, List.zip_cons_cons, List.zip_nil_left,
    Nat.or_zero, Nat.or_assoc, toNat_addr47_6]
  rw [toNat_put 53 6 rfl rfl (by decide) (by decide), toNat_low 4 rfl]
  simp only [UInt8.toNat_toUInt64]

theorem tensorLoadInterleave16_reads (addr : UInt64) (start rows : UInt8) (id : Bool)
    (stride : UInt64) :
    Reads (tensorLoadInterleave16 addr start rows id stride).xs
      [⟨59, 4⟩, ⟨53, 6⟩, ⟨6, 42⟩, ⟨0, 4⟩] [2, start.toNat, addr.toNat / 64, rows.toNat] := by
  apply Reads.of_pack rfl
  simp only [tensorLoadInterleave16, UInt64.toNat_or, pack, List.zip_cons_cons,
    List.zip_nil_left, Nat.or_zero, Nat.or_assoc, toNat_addr47_6]
  rw [toNat_put 53 6 rfl rfl (by decide) (by decide), toNat_low 4 rfl,
    show ((0b010 : UInt64) <<< 59).toNat = Field.put ⟨59, 4⟩ 2 by decide]
  simp only [UInt8.toNat_toUInt64]

theorem tensorLoadB_reads (addr : UInt64) (rows : UInt8) (coop : Bool) (stride : UInt64)
    (id : Bool) :
    Reads (tensorLoadB addr rows coop stride id).xs [⟨62, 1⟩, ⟨52, 1⟩, ⟨6, 42⟩, ⟨0, 4⟩]
      [coop.toNat, 1, addr.toNat / 64, rows.toNat] := by
  apply Reads.of_pack rfl
  simp only [tensorLoadB, UInt64.toNat_or, pack, List.zip_cons_cons, List.zip_nil_left,
    Nat.or_zero, Nat.or_assoc, toNat_addr47_6]
  rw [toNat_flag 62 coop rfl (by decide), toNat_low 4 rfl,
    show ((1 : UInt64) <<< 52).toNat = Field.put ⟨52, 1⟩ 1 by decide]
  simp only [UInt8.toNat_toUInt64]

/-- The fields of a product of floats. -/
def floatLayout : List Field :=
  [⟨63, 1⟩, ⟨55, 2⟩, ⟨51, 4⟩, ⟨47, 4⟩, ⟨43, 4⟩, ⟨20, 1⟩, ⟨12, 6⟩, ⟨4, 6⟩, ⟨1, 3⟩, ⟨0, 1⟩]

section

variable (bcols arows acols aoffset : UInt8) (tenb : Bool) (bstart astart : UInt8)
  (dst ub ua mulOnly useMask : Bool)

theorem fma32_reads :
    Reads (Gemm.fma32Xs bcols arows acols aoffset tenb bstart astart mulOnly useMask) floatLayout
      [useMask.toNat, bcols.toNat, arows.toNat, acols.toNat, aoffset.toNat, tenb.toNat,
        bstart.toNat, astart.toNat, 0, mulOnly.toNat] := by
  apply Reads.of_pack rfl
  simp only [Gemm.fma32Xs, floatLayout, UInt64.toNat_or, pack, List.zip_cons_cons,
    List.zip_nil_left, Nat.or_zero, Nat.or_assoc]
  rw [toNat_flag 63 useMask rfl (by decide), toNat_put 55 2 rfl rfl (by decide) (by decide),
    toNat_put 51 4 rfl rfl (by decide) (by decide), toNat_put 47 4 rfl rfl (by decide) (by decide),
    toNat_put 43 4 rfl rfl (by decide) (by decide), toNat_flag 20 tenb rfl (by decide),
    toNat_put 12 6 rfl rfl (by decide) (by decide), toNat_put 4 6 rfl rfl (by decide) (by decide),
    toNat_bit, show Field.put ⟨1, 3⟩ 0 = 0 by decide, Nat.zero_or]
  simp only [UInt8.toNat_toUInt64]

theorem fma16a32_reads :
    Reads (fma16a32Xs bcols arows acols aoffset tenb bstart astart mulOnly useMask) floatLayout
      [useMask.toNat, bcols.toNat, arows.toNat, acols.toNat, aoffset.toNat, tenb.toNat,
        bstart.toNat, astart.toNat, 1, mulOnly.toNat] := by
  apply Reads.of_pack rfl
  simp only [fma16a32Xs, floatLayout, UInt64.toNat_or, pack, List.zip_cons_cons,
    List.zip_nil_left, Nat.or_zero, Nat.or_assoc]
  rw [toNat_flag 63 useMask rfl (by decide), toNat_put 55 2 rfl rfl (by decide) (by decide),
    toNat_put 51 4 rfl rfl (by decide) (by decide), toNat_put 47 4 rfl rfl (by decide) (by decide),
    toNat_put 43 4 rfl rfl (by decide) (by decide), toNat_flag 20 tenb rfl (by decide),
    toNat_put 12 6 rfl rfl (by decide) (by decide), toNat_put 4 6 rfl rfl (by decide) (by decide),
    toNat_bit, show ((1 : UInt64) <<< 1).toNat = Field.put ⟨1, 3⟩ 1 by decide]
  simp only [UInt8.toNat_toUInt64]

theorem ima8a32_reads :
    Reads (ima8a32Xs bcols arows acols aoffset tenb bstart astart dst ub ua mulOnly useMask)
      [⟨63, 1⟩, ⟨55, 2⟩, ⟨51, 4⟩, ⟨47, 4⟩, ⟨43, 4⟩, ⟨23, 1⟩, ⟨22, 1⟩, ⟨21, 1⟩, ⟨20, 1⟩, ⟨12, 6⟩,
        ⟨4, 6⟩, ⟨1, 3⟩, ⟨0, 1⟩]
      [useMask.toNat, bcols.toNat, arows.toNat, acols.toNat, aoffset.toNat, dst.toNat, ub.toNat,
        ua.toNat, tenb.toNat, bstart.toNat, astart.toNat, 3, mulOnly.toNat] := by
  apply Reads.of_pack rfl
  simp only [ima8a32Xs, UInt64.toNat_or, pack, List.zip_cons_cons, List.zip_nil_left,
    Nat.or_zero, Nat.or_assoc]
  rw [toNat_flag 63 useMask rfl (by decide), toNat_put 55 2 rfl rfl (by decide) (by decide),
    toNat_put 51 4 rfl rfl (by decide) (by decide), toNat_put 47 4 rfl rfl (by decide) (by decide),
    toNat_put 43 4 rfl rfl (by decide) (by decide), toNat_flag 23 dst rfl (by decide),
    toNat_flag 22 ub rfl (by decide), toNat_flag 21 ua rfl (by decide),
    toNat_flag 20 tenb rfl (by decide), toNat_put 12 6 rfl rfl (by decide) (by decide),
    toNat_put 4 6 rfl rfl (by decide) (by decide), toNat_bit,
    show ((3 : UInt64) <<< 1).toNat = Field.put ⟨1, 3⟩ 3 by decide]
  simp only [UInt8.toNat_toUInt64]

end

/-- The step of a store counts from one. -/
theorem toNat_step (step : UInt8) :
    (if 1 ≤ step then step.toUInt64 - 1 else 0).toNat = step.toNat - 1 := by
  by_cases hle : 1 ≤ step
  · have hone : (1 : UInt64) ≤ step.toUInt64 := by
      rw [UInt64.le_iff_toNat_le, UInt8.toNat_toUInt64]
      exact UInt8.le_iff_toNat_le.1 hle
    rw [if_pos hle, UInt64.toNat_sub_of_le _ _ hone, UInt8.toNat_toUInt64]
    rfl
  · have hlt := UInt8.le_iff_toNat_le.not.1 hle
    rw [show (1 : UInt8).toNat = 1 from rfl] at hlt
    rw [if_neg hle, show (0 : UInt64).toNat = 0 from rfl]
    omega

theorem tensorStoreFromScp_reads (addr : UInt64) (rows start step : UInt8) (stride : UInt64) :
    Reads (tensorStoreFromScp addr rows start step stride).xs
      [⟨62, 2⟩, ⟨56, 6⟩, ⟨51, 4⟩, ⟨48, 1⟩, ⟨6, 42⟩]
      [step.toNat - 1, start.toNat, rows.toNat, 1, addr.toNat / 64] := by
  apply Reads.of_pack rfl
  simp only [tensorStoreFromScp, UInt64.toNat_or, pack, List.zip_cons_cons, List.zip_nil_left,
    Nat.or_zero, Nat.or_assoc, toNat_addr47_6]
  rw [toNat_put 62 2 rfl rfl (by decide) (by decide), toNat_put 56 6 rfl rfl (by decide) (by decide),
    toNat_put 51 4 rfl rfl (by decide) (by decide), toNat_step,
    show ((1 : UInt64) <<< 48).toNat = Field.put ⟨48, 1⟩ 1 by decide]
  simp only [UInt8.toNat_toUInt64]

theorem tensorSend_reads (freg count : UInt8) (target : UInt16) :
    Reads (tensorSend freg count target).xs [⟨57, 5⟩, ⟨16, 7⟩, ⟨3, 13⟩]
      [freg.toNat, count.toNat, target.toNat] := by
  apply Reads.of_pack rfl
  simp only [tensorSend, UInt64.toNat_or, pack, List.zip_cons_cons, List.zip_nil_left,
    Nat.or_zero, Nat.or_assoc]
  rw [toNat_put 57 5 rfl rfl (by decide) (by decide), toNat_put 16 7 rfl rfl (by decide) (by decide),
    toNat_put 3 13 rfl rfl (by decide) (by decide)]
  simp only [UInt8.toNat_toUInt64, UInt16.toNat_toUInt64]

theorem tensorRecv_reads (freg : UInt8) (funct : ReduceFunct) (count : UInt8) (source : UInt16) :
    Reads (tensorRecv freg funct count source).xs
      [⟨57, 5⟩, ⟨24, 4⟩, ⟨16, 7⟩, ⟨3, 13⟩, ⟨0, 2⟩]
      [freg.toNat, funct.toU64.toNat, count.toNat, source.toNat, 1] := by
  apply Reads.of_pack rfl
  simp only [tensorRecv, UInt64.toNat_or, pack, List.zip_cons_cons, List.zip_nil_left,
    Nat.or_zero, Nat.or_assoc]
  rw [toNat_put 57 5 rfl rfl (by decide) (by decide), toNat_put 24 4 rfl rfl (by decide) (by decide),
    toNat_put 16 7 rfl rfl (by decide) (by decide), toNat_put 3 13 rfl rfl (by decide) (by decide),
    show (1 : UInt64).toNat = Field.put ⟨0, 2⟩ 1 by decide]
  simp only [UInt8.toNat_toUInt64, UInt16.toNat_toUInt64]

theorem tensorStore_reads (addr : UInt64) (arows : UInt8) (stride : UInt64) :
    Reads (tensorStore addr arows stride).xs [⟨55, 2⟩, ⟨51, 4⟩, ⟨4, 44⟩]
      [3, arows.toNat, addr.toNat / 16] := by
  apply Reads.of_pack rfl
  simp only [tensorStore, UInt64.toNat_or, pack, List.zip_cons_cons, List.zip_nil_left,
    Nat.or_zero, Nat.or_assoc, toNat_addr47_4]
  rw [toNat_put 51 4 rfl rfl (by decide) (by decide),
    show ((3 : UInt64) <<< 55).toNat = Field.put ⟨55, 2⟩ 3 by decide]
  simp only [UInt8.toNat_toUInt64]

/-! ## What the co-processor reads -/

/-- The identifier that a load ends up with: the lowest bit of its stride falls on it. -/
def mixedId (id : Bool) (stride : UInt64) : Bool := id || stride.toNat % 2 == 1

theorem stride_fields (stride : UInt64) (id : Bool) :
    field (stride ||| id.toUInt64) 6 58 = stride.toNat / 64 ∧
      field (stride ||| id.toUInt64) 0 1 = (mixedId id stride).toNat := by
  have hlt := stride.toNat_lt
  rw [field, field, UInt64.toNat_or, Field.get_or, Field.get_or, toNat_bit, Field.get_put_self,
    Field.get_put_of_apart (by decide), Nat.or_zero]
  refine ⟨?_, ?_⟩
  · simp only [Field.get, Nat.shiftRight_eq_div_pow]
    omega
  · rcases Nat.mod_two_eq_zero_or_one stride.toNat with hbit | hbit <;>
      cases id <;> simp [Field.get, mixedId, hbit]

theorem field_div64 (stride : UInt64) : field stride 6 58 = stride.toNat / 64 := by
  have hlt := stride.toNat_lt
  simp only [field, Field.get, Nat.shiftRight_eq_div_pow]
  omega

theorem field_div16 (stride : UInt64) : field stride 4 44 = stride.toNat / 16 % 2 ^ 44 := by
  simp only [field, Field.get, Nat.shiftRight_eq_div_pow]

/-- The operands of a call, each in the bits that the instruction has for it. -/
def TensorCall.operands : TensorCall → TensorInstr
  | .wait event => .wait event.toU64.toNat
  | .setMask mask => .setMask mask.toNat
  | .loadL2 addr start rows id stride =>
    .loadL2 (addr.toNat / 64 % 2 ^ 42) (start.toNat % 2 ^ 6) (rows.toNat % 2 ^ 4)
      id.toNat (stride.toNat / 64)
  | .load addr start rows id stride =>
    .load (addr.toNat / 64 % 2 ^ 42) (start.toNat % 2 ^ 6) (rows.toNat % 2 ^ 4)
      id.toNat (stride.toNat / 64)
  | .loadInterleave16 addr start rows id stride =>
    .loadInterleave16 (addr.toNat / 64 % 2 ^ 42) (start.toNat % 2 ^ 6) (rows.toNat % 2 ^ 4)
      id.toNat (stride.toNat / 64)
  | .loadB addr rows coop stride id =>
    .loadB (addr.toNat / 64 % 2 ^ 42) (rows.toNat % 2 ^ 4) coop.toNat (stride.toNat / 64)
      id.toNat
  | .fma32 bcols arows acols aoffset tenb bstart astart mulOnly useMask =>
    .fma32 (bcols.toNat % 2 ^ 2) (arows.toNat % 2 ^ 4) (acols.toNat % 2 ^ 4)
      (aoffset.toNat % 2 ^ 4) tenb.toNat (bstart.toNat % 2 ^ 6) (astart.toNat % 2 ^ 6)
      mulOnly.toNat useMask.toNat
  | .fma16a32 bcols arows acols aoffset tenb bstart astart mulOnly useMask =>
    .fma16a32 (bcols.toNat % 2 ^ 2) (arows.toNat % 2 ^ 4) (acols.toNat % 2 ^ 4)
      (aoffset.toNat % 2 ^ 4) tenb.toNat (bstart.toNat % 2 ^ 6) (astart.toNat % 2 ^ 6)
      mulOnly.toNat useMask.toNat
  | .ima8a32 bcols arows acols aoffset bInMem bstart astart dstFp bUnsigned aUnsigned mulOnly
      useMask =>
    .ima8a32 (bcols.toNat % 2 ^ 2) (arows.toNat % 2 ^ 4) (acols.toNat % 2 ^ 4)
      (aoffset.toNat % 2 ^ 4) bInMem.toNat (bstart.toNat % 2 ^ 6) (astart.toNat % 2 ^ 6)
      dstFp.toNat bUnsigned.toNat aUnsigned.toNat mulOnly.toNat useMask.toNat
  | .storeFromScp addr rows start step stride =>
    .storeFromScp (addr.toNat / 64 % 2 ^ 42) (rows.toNat % 2 ^ 4) (start.toNat % 2 ^ 6)
      ((step.toNat - 1) % 2 ^ 2) (stride.toNat / 64)
  | .store addr arows stride =>
    .store (addr.toNat / 16 % 2 ^ 44) (arows.toNat % 2 ^ 4) (stride.toNat / 16 % 2 ^ 44)
  | .send freg count target =>
    .send (freg.toNat % 2 ^ 5) (count.toNat % 2 ^ 7) (target.toNat % 2 ^ 13)
  | .recv freg funct count source =>
    .recv (freg.toNat % 2 ^ 5) funct.toU64.toNat (count.toNat % 2 ^ 7) (source.toNat % 2 ^ 13)

/-- The call that the co-processor carries out for a call. -/
def TensorCall.mixed : TensorCall → TensorCall
  | .loadL2 addr start rows id stride => .loadL2 addr start rows (mixedId id stride) stride
  | .load addr start rows id stride => .load addr start rows (mixedId id stride) stride
  | .loadInterleave16 addr start rows id stride =>
    .loadInterleave16 addr start rows (mixedId id stride) stride
  | .loadB addr rows coop stride id => .loadB addr rows coop stride (mixedId id stride)
  | call => call

theorem decode_tensorWait (event : TensorEvent) :
    (tensorWait event).decode = some (TensorCall.wait event).operands := by
  cases event <;> decide

theorem decode_setTensorMask (mask : UInt16) :
    (setTensorMask mask).decode = some (TensorCall.setMask mask).operands := by
  have hxs := setTensorMask_reads mask
  simp only [TensorWrite.decode, hxs 16 48 (by decide), hxs 0 16 (by decide)]
  simp [setTensorMask, csrTensorWait, csrTensorMask, lookup, TensorCall.operands,
    Nat.mod_eq_of_lt mask.toNat_lt]

theorem decode_tensorLoadL2 (addr : UInt64) (start rows : UInt8) (id : Bool) (stride : UInt64) :
    (tensorLoadL2 addr start rows id stride).decode =
      some (TensorCall.loadL2 addr start rows id stride).mixed.operands := by
  have hxs : Reads (tensorLoadL2 addr start rows id stride).xs _ _ :=
    tensorLoad_reads addr start rows id stride
  obtain ⟨hstride, hid⟩ : field ((tensorLoadL2 addr start rows id stride).x31.getD 0) 6 58 = _ ∧
    field ((tensorLoadL2 addr start rows id stride).x31.getD 0) 0 1 = _ := stride_fields stride id
  simp only [TensorWrite.decode, hxs 59 5 (by decide), hxs 48 5 (by decide), hxs 4 2 (by decide),
    hxs 6 42 (by decide), hxs 53 6 (by decide), hxs 0 4 (by decide), hstride, hid]
  simp [tensorLoadL2, csrTensorWait, csrTensorMask, csrTensorLoadL2, lookup, TensorCall.mixed,
    TensorCall.operands]

theorem decode_tensorLoad (addr : UInt64) (start rows : UInt8) (id : Bool) (stride : UInt64) :
    (tensorLoad addr start rows id stride).decode =
      some (TensorCall.load addr start rows id stride).mixed.operands := by
  have hxs := tensorLoad_reads addr start rows id stride
  obtain ⟨hstride, hid⟩ : field ((tensorLoad addr start rows id stride).x31.getD 0) 6 58 = _ ∧
    field ((tensorLoad addr start rows id stride).x31.getD 0) 0 1 = _ := stride_fields stride id
  simp only [TensorWrite.decode, hxs 63 1 (by decide), hxs 48 4 (by decide), hxs 4 2 (by decide),
    hxs 52 1 (by decide), hxs 59 4 (by decide), hxs 6 42 (by decide), hxs 53 6 (by decide),
    hxs 0 4 (by decide), hstride, hid]
  simp [tensorLoad, csrTensorWait, csrTensorMask, csrTensorLoadL2, csrTensorLoad, lookup,
    TensorCall.mixed,
    TensorCall.operands]

theorem decode_tensorLoadInterleave16 (addr : UInt64) (start rows : UInt8) (id : Bool)
    (stride : UInt64) :
    (tensorLoadInterleave16 addr start rows id stride).decode =
      some (TensorCall.loadInterleave16 addr start rows id stride).mixed.operands := by
  have hxs := tensorLoadInterleave16_reads addr start rows id stride
  obtain ⟨hstride, hid⟩ :
    field ((tensorLoadInterleave16 addr start rows id stride).x31.getD 0) 6 58 = _ ∧
    field ((tensorLoadInterleave16 addr start rows id stride).x31.getD 0) 0 1 = _ :=
      stride_fields stride id
  simp only [TensorWrite.decode, hxs 63 1 (by decide), hxs 48 4 (by decide), hxs 4 2 (by decide),
    hxs 52 1 (by decide), hxs 59 4 (by decide), hxs 6 42 (by decide), hxs 53 6 (by decide),
    hxs 0 4 (by decide), hstride, hid]
  simp [tensorLoadInterleave16, csrTensorWait, csrTensorMask, csrTensorLoadL2, csrTensorLoad,
    lookup, TensorCall.mixed,
    TensorCall.operands]

theorem decode_tensorLoadB (addr : UInt64) (rows : UInt8) (coop : Bool) (stride : UInt64)
    (id : Bool) :
    (tensorLoadB addr rows coop stride id).decode =
      some (TensorCall.loadB addr rows coop stride id).mixed.operands := by
  have hxs := tensorLoadB_reads addr rows coop stride id
  obtain ⟨hstride, hid⟩ : field ((tensorLoadB addr rows coop stride id).x31.getD 0) 6 58 = _ ∧
    field ((tensorLoadB addr rows coop stride id).x31.getD 0) 0 1 = _ := stride_fields stride id
  simp only [TensorWrite.decode, hxs 63 1 (by decide), hxs 48 4 (by decide), hxs 4 2 (by decide),
    hxs 52 1 (by decide), hxs 53 9 (by decide), hxs 6 42 (by decide), hxs 0 4 (by decide),
    hxs 62 1 (by decide), hstride, hid]
  simp [tensorLoadB, csrTensorWait, csrTensorMask, csrTensorLoadL2, csrTensorLoad, lookup,
    TensorCall.mixed,
    TensorCall.operands, toNat_mod_two]

section

variable (bcols arows acols aoffset : UInt8) (tenb : Bool) (bstart astart : UInt8)
  (dst ub ua mulOnly useMask : Bool)

theorem decode_fma32 :
    (TensorCall.fma32 bcols arows acols aoffset tenb bstart astart mulOnly useMask).write.decode =
      some (TensorCall.fma32 bcols arows acols aoffset tenb bstart astart mulOnly
        useMask).operands := by
  have hxs := fma32_reads bcols arows acols aoffset tenb bstart astart mulOnly useMask
  simp only [TensorWrite.decode, TensorCall.write, tensorFma, hxs 57 6 (by decide),
    hxs 24 19 (by decide), hxs 18 2 (by decide), hxs 10 2 (by decide), hxs 1 3 (by decide),
    hxs 21 3 (by decide), hxs 55 2 (by decide), hxs 51 4 (by decide), hxs 47 4 (by decide),
    hxs 43 4 (by decide), hxs 20 1 (by decide), hxs 12 6 (by decide), hxs 4 6 (by decide),
    hxs 0 1 (by decide), hxs 63 1 (by decide)]
  simp [floatLayout, csrTensorWait, csrTensorMask, csrTensorLoadL2, csrTensorLoad, csrTensorFma,
    lookup, TensorCall.operands, toNat_mod_two]

theorem decode_fma16a32 :
    (TensorCall.fma16a32 bcols arows acols aoffset tenb bstart astart mulOnly
        useMask).write.decode =
      some (TensorCall.fma16a32 bcols arows acols aoffset tenb bstart astart mulOnly
        useMask).operands := by
  have hxs := fma16a32_reads bcols arows acols aoffset tenb bstart astart mulOnly useMask
  simp only [TensorWrite.decode, TensorCall.write, tensorFma, hxs 57 6 (by decide),
    hxs 24 19 (by decide), hxs 18 2 (by decide), hxs 10 2 (by decide), hxs 1 3 (by decide),
    hxs 21 3 (by decide), hxs 55 2 (by decide), hxs 51 4 (by decide), hxs 47 4 (by decide),
    hxs 43 4 (by decide), hxs 20 1 (by decide), hxs 12 6 (by decide), hxs 4 6 (by decide),
    hxs 0 1 (by decide), hxs 63 1 (by decide)]
  simp [floatLayout, csrTensorWait, csrTensorMask, csrTensorLoadL2, csrTensorLoad, csrTensorFma,
    lookup, TensorCall.operands, toNat_mod_two]

theorem decode_ima8a32 :
    (TensorCall.ima8a32 bcols arows acols aoffset tenb bstart astart dst ub ua mulOnly
        useMask).write.decode =
      some (TensorCall.ima8a32 bcols arows acols aoffset tenb bstart astart dst ub ua mulOnly
        useMask).operands := by
  have hxs := ima8a32_reads bcols arows acols aoffset tenb bstart astart dst ub ua mulOnly useMask
  simp only [TensorWrite.decode, TensorCall.write, tensorFma, hxs 57 6 (by decide),
    hxs 24 19 (by decide), hxs 18 2 (by decide), hxs 10 2 (by decide), hxs 1 3 (by decide),
    hxs 55 2 (by decide), hxs 51 4 (by decide), hxs 47 4 (by decide), hxs 43 4 (by decide),
    hxs 20 1 (by decide), hxs 12 6 (by decide), hxs 4 6 (by decide), hxs 23 1 (by decide),
    hxs 22 1 (by decide), hxs 21 1 (by decide), hxs 0 1 (by decide), hxs 63 1 (by decide)]
  simp [csrTensorWait, csrTensorMask, csrTensorLoadL2, csrTensorLoad, csrTensorFma, lookup,
    TensorCall.operands, toNat_mod_two]

end

theorem decode_tensorStoreFromScp (addr : UInt64) (rows start step : UInt8) (stride : UInt64) :
    (tensorStoreFromScp addr rows start step stride).decode =
      some (TensorCall.storeFromScp addr rows start step stride).operands := by
  have hxs := tensorStoreFromScp_reads addr rows start step stride
  have hstride : field ((tensorStoreFromScp addr rows start step stride).x31.getD 0) 6 58 =
      stride.toNat / 64 := field_div64 stride
  simp only [TensorWrite.decode, hxs 48 1 (by decide), hxs 55 1 (by decide), hxs 49 2 (by decide),
    hxs 0 6 (by decide), hxs 6 42 (by decide), hxs 51 4 (by decide), hxs 56 6 (by decide),
    hxs 62 2 (by decide), hstride]
  simp [tensorStoreFromScp, csrTensorWait, csrTensorMask, csrTensorLoadL2, csrTensorLoad,
    csrTensorFma, csrTensorStore, lookup, TensorCall.operands]

theorem decode_tensorStore (addr : UInt64) (arows : UInt8) (stride : UInt64) :
    (tensorStore addr arows stride).decode =
      some (TensorCall.store addr arows stride).operands := by
  have hxs := tensorStore_reads addr arows stride
  have hstride : field ((tensorStore addr arows stride).x31.getD 0) 4 44 =
      stride.toNat / 16 % 2 ^ 44 := field_div16 stride
  simp only [TensorWrite.decode, hxs 48 1 (by decide), hxs 57 7 (by decide), hxs 55 2 (by decide),
    hxs 49 2 (by decide), hxs 0 4 (by decide), hxs 4 44 (by decide), hxs 51 4 (by decide), hstride]
  simp [tensorStore, csrTensorWait, csrTensorMask, csrTensorLoadL2, csrTensorLoad, csrTensorFma,
    csrTensorStore, lookup, TensorCall.operands]

theorem decode_tensorSend (freg count : UInt8) (target : UInt16) :
    (tensorSend freg count target).decode =
      some (TensorCall.send freg count target).operands := by
  have hxs := tensorSend_reads freg count target
  simp only [TensorWrite.decode, hxs 62 2 (by decide), hxs 28 29 (by decide),
    hxs 23 1 (by decide), hxs 2 1 (by decide), hxs 0 2 (by decide), hxs 24 4 (by decide),
    hxs 57 5 (by decide), hxs 16 7 (by decide), hxs 3 13 (by decide)]
  simp [tensorSend, csrTensorWait, csrTensorMask, csrTensorLoadL2, csrTensorLoad, csrTensorFma,
    csrTensorStore, csrTensorReduce, lookup, TensorCall.operands]

theorem decode_tensorRecv (freg : UInt8) (funct : ReduceFunct) (count : UInt8)
    (source : UInt16) :
    (tensorRecv freg funct count source).decode =
      some (TensorCall.recv freg funct count source).operands := by
  have hxs := tensorRecv_reads freg funct count source
  have hfunct : funct.toU64.toNat % 16 = funct.toU64.toNat := by cases funct <;> rfl
  simp only [TensorWrite.decode, hxs 62 2 (by decide), hxs 28 29 (by decide),
    hxs 23 1 (by decide), hxs 2 1 (by decide), hxs 0 2 (by decide), hxs 24 4 (by decide),
    hxs 57 5 (by decide), hxs 16 7 (by decide), hxs 3 13 (by decide)]
  simp [tensorRecv, csrTensorWait, csrTensorMask, csrTensorLoadL2, csrTensorLoad, csrTensorFma,
    csrTensorStore, csrTensorReduce, lookup, TensorCall.operands, hfunct]

/-- Each operand takes the bits that the instruction has for it, cut to their number, once an odd
stride has set the identifier of a load. -/
theorem decode_write (call : TensorCall) : call.write.decode = some call.mixed.operands := by
  cases call with
  | wait event => exact decode_tensorWait event
  | setMask mask => exact decode_setTensorMask mask
  | loadL2 addr start rows id stride => exact decode_tensorLoadL2 addr start rows id stride
  | load addr start rows id stride => exact decode_tensorLoad addr start rows id stride
  | loadInterleave16 addr start rows id stride =>
    exact decode_tensorLoadInterleave16 addr start rows id stride
  | loadB addr rows coop stride id => exact decode_tensorLoadB addr rows coop stride id
  | fma32 bcols arows acols aoffset tenb bstart astart mulOnly useMask =>
    exact decode_fma32 bcols arows acols aoffset tenb bstart astart mulOnly useMask
  | fma16a32 bcols arows acols aoffset tenb bstart astart mulOnly useMask =>
    exact decode_fma16a32 bcols arows acols aoffset tenb bstart astart mulOnly useMask
  | ima8a32 bcols arows acols aoffset bInMem bstart astart dstFp bUnsigned aUnsigned mulOnly
      useMask =>
    exact decode_ima8a32 bcols arows acols aoffset bInMem bstart astart dstFp bUnsigned aUnsigned
      mulOnly useMask
  | storeFromScp addr rows start step stride =>
    exact decode_tensorStoreFromScp addr rows start step stride
  | store addr arows stride => exact decode_tensorStore addr arows stride
  | send freg count target => exact decode_tensorSend freg count target
  | recv freg funct count source => exact decode_tensorRecv freg funct count source

/-- The stride of a load does not set an identifier that is to be zero. -/
def TensorCall.StrideInField : TensorCall → Prop
  | .loadL2 _ _ _ id stride | .load _ _ _ id stride | .loadInterleave16 _ _ _ id stride
  | .loadB _ _ _ stride id => stride.toNat % 2 = 1 → id = true
  | _ => True

theorem mixedId_eq {id : Bool} {stride : UInt64} :
    mixedId id stride = id ↔ (stride.toNat % 2 = 1 → id = true) := by
  cases id <;> simp [mixedId]

theorem toNat_mixedId {id : Bool} {stride : UInt64} :
    (mixedId id stride).toNat = id.toNat ↔ (stride.toNat % 2 = 1 → id = true) := by
  rw [← mixedId_eq]
  exact ⟨fun h => by revert h; cases mixedId id stride <;> cases id <;> decide, congrArg _⟩

/-- Each operand takes the bits that the instruction has for it and no others, whatever the
operands are, but for the odd strides that set the identifier of a load. -/
theorem decode_write_iff (call : TensorCall) :
    call.write.decode = some call.operands ↔ call.StrideInField := by
  rw [decode_write, Option.some.injEq]
  cases call with
  | loadL2 addr start rows id stride | load addr start rows id stride
  | loadInterleave16 addr start rows id stride | loadB addr rows coop stride id =>
    simp only [TensorCall.mixed, TensorCall.operands, TensorCall.StrideInField, toNat_mixedId,
      TensorInstr.loadL2.injEq, TensorInstr.load.injEq, TensorInstr.loadInterleave16.injEq,
      TensorInstr.loadB.injEq, true_and, and_true]
  | _ => exact iff_of_true rfl trivial

/-! ## The calls of a kernel -/

/-- An address or a stride of whole lines, within what the instructions can say. -/
def WholeLines (x : UInt64) : Prop := x.toNat % 64 = 0 ∧ x.toNat < 2 ^ 48

/-- The operands that the intrinsics are documented to take. -/
def TensorCall.Documented : TensorCall → Prop
  | .wait _ => True
  | .setMask _ => True
  | .loadL2 addr start rows _ stride =>
    WholeLines addr ∧ start < 64 ∧ rows < 16 ∧ stride.toNat % 64 = 0
  | .load addr start rows _ stride =>
    WholeLines addr ∧ start < 48 ∧ rows < 16 ∧ stride.toNat % 64 = 0
  | .loadInterleave16 addr start rows _ stride =>
    WholeLines addr ∧ start < 48 ∧ rows < 16 ∧ stride.toNat % 64 = 0
  | .loadB addr rows _ stride _ => WholeLines addr ∧ rows < 16 ∧ stride.toNat % 64 = 0
  | .fma32 bcols arows acols aoffset _ bstart astart _ _ =>
    bcols < 4 ∧ arows < 16 ∧ acols < 16 ∧ aoffset < 16 ∧ bstart < 48 ∧ astart < 48
  | .fma16a32 bcols arows acols aoffset _ bstart astart _ _ =>
    bcols < 4 ∧ arows < 16 ∧ acols < 16 ∧ aoffset < 16 ∧ bstart < 48 ∧ astart < 48
  | .ima8a32 bcols arows acols aoffset _ bstart astart _ _ _ _ _ =>
    bcols < 4 ∧ arows < 16 ∧ acols < 16 ∧ aoffset < 16 ∧ bstart < 48 ∧ astart < 48
  | .storeFromScp addr rows start step stride =>
    WholeLines addr ∧ rows < 16 ∧ start < 48 ∧ (1 ≤ step ∧ step ≤ 4) ∧ stride.toNat % 64 = 0
  | .store addr arows stride => WholeLines addr ∧ arows < 16 ∧ WholeLines stride
  | .send freg count target => freg < 32 ∧ count < 128 ∧ target < 8192
  | .recv freg _ count source => freg < 32 ∧ count < 128 ∧ source < 8192

def TensorEvent.ofCode : ℕ → Option TensorEvent
  | 0 => some .load0
  | 1 => some .load1
  | 2 => some .loadL2_0
  | 3 => some .loadL2_1
  | 4 => some .prefetch0
  | 5 => some .prefetch1
  | 6 => some .cacheOp
  | 7 => some .fma
  | 8 => some .store
  | 9 => some .tensorReduce
  | 10 => some .tensorQuant
  | _ => none

def ReduceFunct.ofCode : ℕ → Option ReduceFunct
  | 0 => some .fadd
  | 2 => some .fmax
  | 3 => some .fmin
  | 4 => some .add
  | 6 => some .max
  | 7 => some .min
  | 8 => some .move
  | _ => none

/-- The documented call that gives an instruction. -/
def TensorInstr.call : TensorInstr → Option TensorCall
  | .wait event => (TensorEvent.ofCode event).map .wait
  | .setMask mask => some (.setMask (.ofNat mask))
  | .loadL2 line start rows id stride =>
    some (.loadL2 (.ofNat (line * 64)) (.ofNat start) (.ofNat rows) (id == 1) (.ofNat (stride * 64)))
  | .load line start rows id stride =>
    some (.load (.ofNat (line * 64)) (.ofNat start) (.ofNat rows) (id == 1) (.ofNat (stride * 64)))
  | .loadInterleave16 line start rows id stride =>
    some (.loadInterleave16 (.ofNat (line * 64)) (.ofNat start) (.ofNat rows) (id == 1)
      (.ofNat (stride * 64)))
  | .loadB line rows coop stride id =>
    some (.loadB (.ofNat (line * 64)) (.ofNat rows) (coop == 1) (.ofNat (stride * 64)) (id == 1))
  | .fma32 bcols arows acols aoffset tenb bstart astart mulOnly useMask =>
    some (.fma32 (.ofNat bcols) (.ofNat arows) (.ofNat acols) (.ofNat aoffset) (tenb == 1)
      (.ofNat bstart) (.ofNat astart) (mulOnly == 1) (useMask == 1))
  | .fma16a32 bcols arows acols aoffset tenb bstart astart mulOnly useMask =>
    some (.fma16a32 (.ofNat bcols) (.ofNat arows) (.ofNat acols) (.ofNat aoffset) (tenb == 1)
      (.ofNat bstart) (.ofNat astart) (mulOnly == 1) (useMask == 1))
  | .ima8a32 bcols arows acols aoffset tenb bstart astart dst ub ua mulOnly useMask =>
    some (.ima8a32 (.ofNat bcols) (.ofNat arows) (.ofNat acols) (.ofNat aoffset) (tenb == 1)
      (.ofNat bstart) (.ofNat astart) (dst == 1) (ub == 1) (ua == 1) (mulOnly == 1) (useMask == 1))
  | .storeFromScp line rows start step stride =>
    some (.storeFromScp (.ofNat (line * 64)) (.ofNat rows) (.ofNat start) (.ofNat (step + 1))
      (.ofNat (stride * 64)))
  | .store addr arows stride =>
    some (.store (.ofNat (addr * 16)) (.ofNat arows) (.ofNat (stride * 16)))
  | .send freg count target => some (.send (.ofNat freg) (.ofNat count) (.ofNat target))
  | .recv freg funct count source =>
    (ReduceFunct.ofCode funct).map fun f => .recv (.ofNat freg) f (.ofNat count) (.ofNat source)

theorem ofNat_byte {x y : UInt8} (n : ℕ) (h : x < y) (hn : y.toNat ≤ 2 ^ n) :
    UInt8.ofNat (x.toNat % 2 ^ n) = x := by
  have hlt := UInt8.lt_iff_toNat_lt.1 h
  rw [Nat.mod_eq_of_lt (lt_of_lt_of_le hlt hn), UInt8.ofNat_toNat]

theorem ofNat_minion {x : UInt16} (h : x < 8192) : UInt16.ofNat (x.toNat % 2 ^ 13) = x := by
  have hlt : x.toNat < 2 ^ 13 := UInt16.lt_iff_toNat_lt.1 h
  rw [Nat.mod_eq_of_lt hlt, UInt16.ofNat_toNat]

theorem ofNat_line {x : UInt64} (h : WholeLines x) :
    UInt64.ofNat (x.toNat / 64 % 2 ^ 42 * 64) = x := by
  obtain ⟨haligned, hlt⟩ := h
  rw [show x.toNat / 64 % 2 ^ 42 * 64 = x.toNat by omega, UInt64.ofNat_toNat]

theorem ofNat_chunk {x : UInt64} (h : WholeLines x) :
    UInt64.ofNat (x.toNat / 16 % 2 ^ 44 * 16) = x := by
  obtain ⟨haligned, hlt⟩ := h
  rw [show x.toNat / 16 % 2 ^ 44 * 16 = x.toNat by omega, UInt64.ofNat_toNat]

theorem ofNat_stride {x : UInt64} (h : x.toNat % 64 = 0) :
    UInt64.ofNat (x.toNat / 64 * 64) = x := by
  rw [show x.toNat / 64 * 64 = x.toNat by omega, UInt64.ofNat_toNat]

theorem ofNat_step {step : UInt8} (h : 1 ≤ step ∧ step ≤ 4) :
    UInt8.ofNat ((step.toNat - 1) % 2 ^ 2 + 1) = step := by
  have hge := UInt8.le_iff_toNat_le.1 h.1
  have hle := UInt8.le_iff_toNat_le.1 h.2
  rw [show (1 : UInt8).toNat = 1 from rfl] at hge
  rw [show (4 : UInt8).toNat = 4 from rfl] at hle
  rw [show (step.toNat - 1) % 2 ^ 2 + 1 = step.toNat by omega, UInt8.ofNat_toNat]

theorem mixedId_of_stride {x : UInt64} (id : Bool) (h : x.toNat % 64 = 0) : mixedId id x = id :=
  mixedId_eq.2 fun hodd => by omega

theorem toNat_beq_one (b : Bool) : (b.toNat == 1) = b := by
  cases b <;> rfl

/-- A documented call is read back from its operands. -/
theorem call_operands {call : TensorCall} (h : call.Documented) :
    call.operands.call = some call := by
  cases call with
  | wait event => cases event <;> rfl
  | setMask mask => simp [TensorCall.operands, TensorInstr.call]
  | loadL2 addr start rows id stride =>
    obtain ⟨haddr, hstart, hrows, hstride⟩ := h
    simp only [TensorCall.operands, TensorInstr.call, ofNat_line haddr,
      ofNat_byte 6 hstart (by decide), ofNat_byte 4 hrows (by decide), toNat_beq_one,
      ofNat_stride hstride]
  | load addr start rows id stride =>
    obtain ⟨haddr, hstart, hrows, hstride⟩ := h
    simp only [TensorCall.operands, TensorInstr.call, ofNat_line haddr,
      ofNat_byte 6 hstart (by decide), ofNat_byte 4 hrows (by decide), toNat_beq_one,
      ofNat_stride hstride]
  | loadInterleave16 addr start rows id stride =>
    obtain ⟨haddr, hstart, hrows, hstride⟩ := h
    simp only [TensorCall.operands, TensorInstr.call, ofNat_line haddr,
      ofNat_byte 6 hstart (by decide), ofNat_byte 4 hrows (by decide), toNat_beq_one,
      ofNat_stride hstride]
  | loadB addr rows coop stride id =>
    obtain ⟨haddr, hrows, hstride⟩ := h
    simp only [TensorCall.operands, TensorInstr.call, ofNat_line haddr,
      ofNat_byte 4 hrows (by decide), toNat_beq_one, ofNat_stride hstride]
  | fma32 bcols arows acols aoffset tenb bstart astart mulOnly useMask =>
    obtain ⟨hbcols, harows, hacols, haoffset, hbstart, hastart⟩ := h
    simp only [TensorCall.operands, TensorInstr.call, ofNat_byte 2 hbcols (by decide),
      ofNat_byte 4 harows (by decide), ofNat_byte 4 hacols (by decide),
      ofNat_byte 4 haoffset (by decide), ofNat_byte 6 hbstart (by decide),
      ofNat_byte 6 hastart (by decide), toNat_beq_one]
  | fma16a32 bcols arows acols aoffset tenb bstart astart mulOnly useMask =>
    obtain ⟨hbcols, harows, hacols, haoffset, hbstart, hastart⟩ := h
    simp only [TensorCall.operands, TensorInstr.call, ofNat_byte 2 hbcols (by decide),
      ofNat_byte 4 harows (by decide), ofNat_byte 4 hacols (by decide),
      ofNat_byte 4 haoffset (by decide), ofNat_byte 6 hbstart (by decide),
      ofNat_byte 6 hastart (by decide), toNat_beq_one]
  | ima8a32 bcols arows acols aoffset bInMem bstart astart dstFp bUnsigned aUnsigned mulOnly
      useMask =>
    obtain ⟨hbcols, harows, hacols, haoffset, hbstart, hastart⟩ := h
    simp only [TensorCall.operands, TensorInstr.call, ofNat_byte 2 hbcols (by decide),
      ofNat_byte 4 harows (by decide), ofNat_byte 4 hacols (by decide),
      ofNat_byte 4 haoffset (by decide), ofNat_byte 6 hbstart (by decide),
      ofNat_byte 6 hastart (by decide), toNat_beq_one]
  | storeFromScp addr rows start step stride =>
    obtain ⟨haddr, hrows, hstart, hstep, hstride⟩ := h
    simp only [TensorCall.operands, TensorInstr.call, ofNat_line haddr,
      ofNat_byte 4 hrows (by decide), ofNat_byte 6 hstart (by decide), ofNat_step hstep,
      ofNat_stride hstride]
  | store addr arows stride =>
    obtain ⟨haddr, harows, hstride⟩ := h
    simp only [TensorCall.operands, TensorInstr.call, ofNat_chunk haddr,
      ofNat_byte 4 harows (by decide), ofNat_chunk hstride]
  | send freg count target =>
    obtain ⟨hfreg, hcount, htarget⟩ := h
    simp only [TensorCall.operands, TensorInstr.call, ofNat_byte 5 hfreg (by decide),
      ofNat_byte 7 hcount (by decide), ofNat_minion htarget]
  | recv freg funct count source =>
    obtain ⟨hfreg, hcount, hsource⟩ := h
    have hfunct : ReduceFunct.ofCode funct.toU64.toNat = some funct := by cases funct <;> rfl
    simp only [TensorCall.operands, TensorInstr.call, ofNat_byte 5 hfreg (by decide),
      ofNat_byte 7 hcount (by decide), ofNat_minion hsource, hfunct, Option.map_some]

/-- The strides of documented calls are even. -/
theorem mixed_of_documented {call : TensorCall} (h : call.Documented) : call.mixed = call := by
  cases call with
  | loadL2 addr start rows id stride | load addr start rows id stride
  | loadInterleave16 addr start rows id stride =>
    rw [TensorCall.mixed, mixedId_of_stride id h.2.2.2]
  | loadB addr rows coop stride id => rw [TensorCall.mixed, mixedId_of_stride id h.2.2]
  | _ => rfl

/-- No two documented calls write the same words: the one that was made is read back. -/
theorem call_of_write (call : TensorCall) (h : call.Documented) :
    call.write.decode.bind TensorInstr.call = some call := by
  rw [decode_write, mixed_of_documented h, Option.bind_some, call_operands h]

theorem call_of_write_storeFromScp :
    (TensorCall.storeFromScp 0x8100000040 15 47 4 128).write.decode.bind TensorInstr.call =
      some (.storeFromScp 0x8100000040 15 47 4 128) :=
  call_of_write (.storeFromScp 0x8100000040 15 47 4 128)
    ⟨⟨by decide, by decide⟩, by decide, by decide, by decide, by decide⟩

end EtSoc.Tensor

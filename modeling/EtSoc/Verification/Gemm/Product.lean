import EtSoc.Library.InFlight
import EtSoc.Verification.Gemm.Instructions

/-! # The product

However the Minions interleave, and in whatever order their co-processors do what is pending, the
matrix that they store is the product. -/

namespace EtSoc.Gemm

open InFlight SharedMemory

variable {R : Type*} [AddCommMonoid R] [Mul R]
variable (args : GemmArgs) (m0 : Memory R)

/-! ## What is to be computed -/

def entryA (i l : ℕ) : R := m0 (word args.a.toNat args.lda.toNat i l)

def entryB (l j : ℕ) : R := m0 (word args.b.toNat args.ldb.toNat l j)

/-- The sum that is left after the first `kTile` rounds. -/
def partialSum (kTile i j : ℕ) : R :=
  ∑ l ∈ Finset.range (min (kTile * 16) args.k.toNat), entryA args m0 i l * entryB args m0 l j

def product (i j : ℕ) : R :=
  ∑ l ∈ Finset.range args.k.toNat, entryA args m0 i l * entryB args m0 l j

variable {args m0}

theorem partialSum_succ {kTile i j : ℕ} (hk : kTile * 16 < args.k.toNat) :
    partialSum args m0 (kTile + 1) i j = partialSum args m0 kTile i j +
      ∑ l ∈ Finset.range (acols args kTile + 1),
        entryA args m0 i (kTile * 16 + l) * entryB args m0 (kTile * 16 + l) j := by
  have hbound : min ((kTile + 1) * 16) args.k.toNat = kTile * 16 + (acols args kTile + 1) := by
    rw [acols]
    omega
  rw [partialSum, hbound, Finset.sum_range_add, partialSum, Nat.min_eq_left hk.le]

theorem partialSum_zero (args : GemmArgs) (m0 : Memory R) (i j : ℕ) :
    partialSum args m0 0 i j = 0 := by
  rw [partialSum, Nat.zero_mul, Nat.zero_min, Finset.range_zero, Finset.sum_empty]

theorem partialSum_nTileK (args : GemmArgs) (m0 : Memory R) (i j : ℕ) :
    partialSum args m0 (nTileK args) i j = product args m0 i j := by
  have hbound : min (nTileK args * 16) args.k.toNat = args.k.toNat := by
    rw [nTileK, divCeil, gemmTileK]
    omega
  rw [partialSum, hbound, product]

/-! ## What the co-processor holds -/

section

variable (args m0) (tileRow tileCol kTile : ℕ) (unit : TensorUnit R)

/-- A line of the scratchpad has its row of `A`. -/
def LineLoaded (i : ℕ) : Prop :=
  ∀ x < 16, unit.scp i x = entryA args m0 (tileRow * 16 + i) (kTile * 16 + x)

/-- A row of the register file has its row of `B`. -/
def RowLoaded (l : ℕ) : Prop :=
  ∀ x < 16, unit.tenB l x = entryB args m0 (kTile * 16 + l) (tileCol * 16 + x)

/-- The accumulators have the sums of the rounds before `kTile`; before the first they may have
anything. -/
def Accumulated : Prop :=
  0 < kTile → ∀ i ≤ arows args tileRow, ∀ x < 16,
    unit.acc i x = partialSum args m0 kTile (tileRow * 16 + i) (tileCol * 16 + x)

end

variable {tileRow tileCol kTile : ℕ} {unit : TensorUnit R}

/-- A round of products adds its part of the sums. -/
theorem Accumulated.fma (hk : kTile * 16 < args.k.toNat)
    (hA : ∀ i < arows args tileRow + 1, LineLoaded args m0 tileRow kTile unit i)
    (hB : ∀ l < acols args kTile + 1, RowLoaded args m0 tileCol kTile unit l)
    (hacc : Accumulated args m0 tileRow tileCol kTile unit) (mem : Memory R) :
    Accumulated args m0 tileRow tileCol (kTile + 1)
      ((fmaOf args tileRow kTile).perform mem unit).2 := by
  intro _ i hi x hx
  have hcols := acols_lt args kTile
  have hsum : ∑ l ∈ Finset.range (acols args kTile + 1),
      unit.scp (0 + i) (0 + l) * unit.tenB l x =
      ∑ l ∈ Finset.range (acols args kTile + 1), entryA args m0 (tileRow * 16 + i) (kTile * 16 + l) *
        entryB args m0 (kTile * 16 + l) (tileCol * 16 + x) := by
    refine Finset.sum_congr rfl fun l hl => ?_
    have hl := Finset.mem_range.1 hl
    rw [Nat.zero_add, Nat.zero_add, hA i (Nat.lt_succ_of_le hi) l (by omega), hB l hl x hx]
  have hstart : (if (kTile == 0).toNat = 1 then 0 else unit.acc i x) =
      partialSum args m0 kTile (tileRow * 16 + i) (tileCol * 16 + x) := by
    rcases Nat.eq_zero_or_pos kTile with rfl | hpos
    · rw [partialSum_zero]
      rfl
    · rw [if_neg, hacc hpos i hi x hx]
      simp [Nat.ne_of_gt hpos]
  rw [partialSum_succ hk, ← hstart, ← hsum]
  simp only [fmaOf, Micro.perform, Fma.result]
  rw [if_pos ⟨hi, by omega, by simp⟩]
  rfl

/-! ## What is stored -/

section

variable (args m0)

/-- Outside of the rows of the result, the memory is as it was at the launch. -/
def Unwritten (mem : Memory R) : Prop :=
  ∀ w, (∀ i < args.m.toNat, ∀ j < args.ldc.toNat / 4,
    w ≠ word args.c.toNat args.ldc.toNat i j) → mem w = m0 w

def Settled (mem : Memory R) (i j : ℕ) : Prop :=
  mem (word args.c.toNat args.ldc.toNat i j) = product args m0 i j

/-- What is settled stays so. -/
def Allows (mem mem' : Memory R) : Prop :=
  (Unwritten args m0 mem → Unwritten args m0 mem') ∧ ∀ i < args.m.toNat,
    ∀ j < args.ldc.toNat / 4, Settled args m0 mem i j → Settled args m0 mem' i j

def RowDone (mem : Memory R) (tileRow tileCol i : ℕ) : Prop :=
  ∀ x < 16, Settled args m0 mem (tileRow * 16 + i) (tileCol * 16 + x)

def TileDone (mem : Memory R) (tileIdx : ℕ) : Prop :=
  ∀ i < arows args (tileIdx / nTileN args) + 1,
    RowDone args m0 mem (tileIdx / nTileN args) (tileIdx % nTileN args) i

end

variable {mem mem' : Memory R}

theorem Allows.refl (args : GemmArgs) (m0 mem : Memory R) : Allows args m0 mem mem :=
  ⟨id, fun _ _ _ _ => id⟩

theorem word_inj {base stride i j i' j' : ℕ} (hj : j < stride / 4) (hj' : j' < stride / 4)
    (h : word base stride i j = word base stride i' j') : i = i' ∧ j = j' := by
  rw [word, word, Nat.add_assoc, Nat.add_assoc, Nat.add_left_cancel_iff] at h
  have hpos : 0 < stride / 4 := by omega
  have hdiv : ∀ y z, z < stride / 4 → (y * (stride / 4) + z) / (stride / 4) = y := by
    intro y z hz
    rw [Nat.add_comm, Nat.add_mul_div_right _ _ hpos, Nat.div_eq_of_lt hz, Nat.zero_add]
  have hi : i = i' := by rw [← hdiv i j hj, h, hdiv i' j' hj']
  subst hi
  exact ⟨rfl, Nat.add_left_cancel h⟩

/-- The words of a matrix. -/
theorem Operand.word_bounds {base stride rows cols i j : ℕ} (h : Operand base stride rows cols)
    (hi : i < rows) (hj : j < stride / 4) :
    base ≤ 4 * word base stride i j ∧ 4 * word base stride i j < base + rows * stride := by
  obtain ⟨β, hβ⟩ := h.base_aligned
  obtain ⟨σ, hσ⟩ := h.stride_aligned
  rw [tensorAlign] at hβ hσ
  have hquarter : stride / 4 * 4 = stride := by omega
  have hrow : i * (stride / 4) * 4 = i * stride := by rw [Nat.mul_assoc, hquarter]
  have hrows : (i + 1) * stride ≤ rows * stride := Nat.mul_le_mul_right _ hi
  rw [Nat.succ_mul] at hrows
  rw [word]
  omega

/-- The padded columns of a tile are within the row. -/
theorem Operand.col_lt {base stride rows cols tile x : ℕ} (h : Operand base stride rows cols)
    (htile : tile * 16 < cols) (hx : x < 16) : tile * 16 + x < stride / 4 := by
  obtain ⟨σ, hσ⟩ := h.stride_aligned
  have hcovers := h.covers
  rw [tensorAlign] at hσ
  omega

omit [AddCommMonoid R] [Mul R] in
theorem Separate.read_a (h : Separate args) (hmem : Unwritten args m0 mem) {i l : ℕ}
    (hi : i < args.m.toNat) (hl : l < args.lda.toNat / 4) :
    mem (word args.a.toNat args.lda.toNat i l) = entryA args m0 i l := by
  refine hmem _ fun i' hi' j' hj' heq => ?_
  have hA := h.accepted.a.word_bounds hi hl
  have hC := h.accepted.c.word_bounds hi' hj'
  have hapart := h.a_apart
  omega

omit [AddCommMonoid R] [Mul R] in
theorem Separate.read_b (h : Separate args) (hmem : Unwritten args m0 mem) {l j : ℕ}
    (hl : l < args.k.toNat) (hj : j < args.ldb.toNat / 4) :
    mem (word args.b.toNat args.ldb.toNat l j) = entryB args m0 l j := by
  refine hmem _ fun i' hi' j' hj' heq => ?_
  have hB := h.accepted.b.word_bounds hl hj
  have hC := h.accepted.c.word_bounds hi' hj'
  have hapart := h.b_apart
  omega

theorem perform_cRow (i w : ℕ) :
    ((cRow args tileRow tileCol i).perform mem unit).1 w =
      if word args.c.toNat args.ldc.toNat (tileRow * 16 + i) (tileCol * 16) ≤ w ∧
          w < word args.c.toNat args.ldc.toNat (tileRow * 16 + i) (tileCol * 16) + 16 then
        unit.acc i (w - word args.c.toNat args.ldc.toNat (tileRow * 16 + i) (tileCol * 16))
      else mem w := rfl

/-- The words that a store writes. -/
theorem exists_word {base stride i j w : ℕ} (hge : word base stride i j ≤ w)
    (hlt : w < word base stride i j + 16) :
    ∃ x < 16, w = word base stride i (j + x) ∧ w - word base stride i j = x := by
  refine ⟨w - word base stride i j, by omega, ?_, rfl⟩
  rw [word] at hge hlt ⊢
  rw [word]
  omega

variable (mem) in
/-- A store of final sums settles its row and nothing else. -/
theorem Separate.store (h : Separate args) {i : ℕ} (hrow : tileRow * 16 + i < args.m.toNat)
    (hcol : tileCol * 16 < args.n.toNat)
    (hacc : ∀ x < 16, unit.acc i x = product args m0 (tileRow * 16 + i) (tileCol * 16 + x)) :
    Allows args m0 mem ((cRow args tileRow tileCol i).perform mem unit).1 ∧
      RowDone args m0 ((cRow args tileRow tileCol i).perform mem unit).1 tileRow tileCol i := by
  have hC := h.accepted.c
  refine ⟨⟨fun hmem w hw => ?_, fun i' _ j' hj' hsettled => ?_⟩, fun x hx => ?_⟩
  · rw [perform_cRow, if_neg, hmem w hw]
    rintro ⟨hge, hlt⟩
    obtain ⟨x, hx, hword, -⟩ := exists_word hge hlt
    exact hw _ hrow _ (hC.col_lt hcol hx) hword
  · rw [Settled, perform_cRow]
    split
    next hin =>
      obtain ⟨x, hx, hword, hsub⟩ := exists_word hin.1 hin.2
      obtain ⟨rfl, rfl⟩ := word_inj hj' (hC.col_lt hcol hx) hword
      rw [hsub, hacc x hx]
    next => exact hsettled
  · have hword : word args.c.toNat args.ldc.toNat (tileRow * 16 + i) (tileCol * 16 + x) =
        word args.c.toNat args.ldc.toNat (tileRow * 16 + i) (tileCol * 16) + x := by
      rw [word, word, ← Nat.add_assoc]
    rw [Settled, perform_cRow, hword, if_pos (by omega), Nat.add_sub_cancel_left, hacc x hx]

theorem row_lt {i : ℕ} (hrow : tileRow * 16 < args.m.toNat) (hi : i < arows args tileRow + 1) :
    tileRow * 16 + i < args.m.toNat := by
  rw [arows] at hi
  omega

/-! ## Where a Minion is -/

section

variable (args) (tileIdx kTile : ℕ) (tiles : List ℕ)

/-- What is left to issue after the first `kTile` rounds of a tile, with the tiles after it. -/
def after : List TensorOp :=
  (List.range' kTile (nTileK args - kTile)).flatMap
      (roundOps args (tileIdx / nTileN args) (tileIdx % nTileN args)) ++
    (storeOps args (tileIdx / nTileN args) (tileIdx % nTileN args) ++
      tiles.flatMap (tileIdxOps args))

theorem tileIdxOps_append :
    (tileIdx :: tiles).flatMap (tileIdxOps args) = after args tileIdx 0 tiles := by
  rw [List.flatMap_cons, tileIdxOps, tileOps, after, List.append_assoc, List.range_eq_range',
    Nat.sub_zero]

theorem after_nTileK : after args tileIdx (nTileK args) tiles =
    storeOps args (tileIdx / nTileN args) (tileIdx % nTileN args) ++
      tiles.flatMap (tileIdxOps args) := by
  rw [after, Nat.sub_self]
  rfl

/-- What is left of a round once `A` is loaded. -/
def roundRest : List TensorOp :=
  .fma (fmaXs args (tileIdx / nTileN args) kTile) :: .wait .fma ::
    after args tileIdx (kTile + 1) tiles

def loadBOp : TensorOp :=
  .loadB (bAddr args kTile (tileIdx % nTileN args)) (acols args kTile) false args.ldb.toNat true

def loadAOp : TensorOp :=
  .load (aAddr args (tileIdx / nTileN args) kTile) 0 (arows args (tileIdx / nTileN args)) false
    args.lda.toNat

def storeOp : TensorOp :=
  .store (cAddr args (tileIdx / nTileN args) (tileIdx % nTileN args))
    (arows args (tileIdx / nTileN args)) args.ldc.toNat

theorem after_succ {kTile : ℕ} (hk : kTile < nTileK args) : after args tileIdx kTile tiles =
    loadAOp args tileIdx kTile :: .wait .load0 :: loadBOp args tileIdx kTile ::
      roundRest args tileIdx kTile tiles := by
  have hcount : nTileK args - kTile = nTileK args - (kTile + 1) + 1 := by omega
  rw [after, hcount, List.range'_succ, List.flatMap_cons]
  rfl

end

/-- Where a Minion is in its tiles, and what its co-processor has done so far. -/
inductive Phase (args : GemmArgs) (m0 mem : Memory R) : List ℕ → Core R → Prop
  | finished (unit : TensorUnit R) : Phase args m0 mem [] ⟨[], [], unit⟩
  /-- The first `kTile` rounds are done. -/
  | round {t tiles kTile unit} (hk : kTile ≤ nTileK args)
      (hacc : Accumulated args m0 (t / nTileN args) (t % nTileN args) kTile unit) :
      Phase args m0 mem (t :: tiles) ⟨after args t kTile tiles, [], unit⟩
  | loadingA {t tiles kTile pending unit} (hk : kTile < nTileK args)
      (hacc : Accumulated args m0 (t / nTileN args) (t % nTileN args) kTile unit)
      (hA : Batch (aRow args (t / nTileN args) kTile) (arows args (t / nTileN args) + 1) pending
        (LineLoaded args m0 (t / nTileN args) kTile unit)) :
      Phase args m0 mem (t :: tiles)
        ⟨.wait .load0 :: loadBOp args t kTile :: roundRest args t kTile tiles, pending, unit⟩
  | loadedA {t tiles kTile unit} (hk : kTile < nTileK args)
      (hacc : Accumulated args m0 (t / nTileN args) (t % nTileN args) kTile unit)
      (hA : ∀ i < arows args (t / nTileN args) + 1,
        LineLoaded args m0 (t / nTileN args) kTile unit i) :
      Phase args m0 mem (t :: tiles)
        ⟨loadBOp args t kTile :: roundRest args t kTile tiles, [], unit⟩
  | loadingB {t tiles kTile pending unit} (hk : kTile < nTileK args)
      (hacc : Accumulated args m0 (t / nTileN args) (t % nTileN args) kTile unit)
      (hA : ∀ i < arows args (t / nTileN args) + 1,
        LineLoaded args m0 (t / nTileN args) kTile unit i)
      (hB : Batch (bRow args (t % nTileN args) kTile) (acols args kTile + 1) pending
        (RowLoaded args m0 (t % nTileN args) kTile unit)) :
      Phase args m0 mem (t :: tiles) ⟨roundRest args t kTile tiles, pending, unit⟩
  | multiplying {t tiles kTile pending unit} (hk : kTile < nTileK args)
      (hacc : Accumulated args m0 (t / nTileN args) (t % nTileN args) kTile unit)
      (hA : ∀ i < arows args (t / nTileN args) + 1,
        LineLoaded args m0 (t / nTileN args) kTile unit i)
      (hB : Batch (bRow args (t % nTileN args) kTile) (acols args kTile + 1) pending
        (RowLoaded args m0 (t % nTileN args) kTile unit)) :
      Phase args m0 mem (t :: tiles)
        ⟨.wait .fma :: after args t (kTile + 1) tiles,
          pending ++ [fmaOf args (t / nTileN args) kTile], unit⟩
  | multiplied {t tiles kTile unit} (hk : kTile < nTileK args)
      (hacc : Accumulated args m0 (t / nTileN args) (t % nTileN args) (kTile + 1) unit) :
      Phase args m0 mem (t :: tiles) ⟨.wait .fma :: after args t (kTile + 1) tiles, [], unit⟩
  | storing {t tiles pending unit}
      (hacc : Accumulated args m0 (t / nTileN args) (t % nTileN args) (nTileK args) unit)
      (hC : Batch (cRow args (t / nTileN args) (t % nTileN args)) (arows args (t / nTileN args) + 1)
        pending (RowDone args m0 mem (t / nTileN args) (t % nTileN args))) :
      Phase args m0 mem (t :: tiles)
        ⟨.wait .store :: .fence :: tiles.flatMap (tileIdxOps args), pending, unit⟩
  | stored {t tiles unit} (hdone : TileDone args m0 mem t) :
      Phase args m0 mem (t :: tiles) ⟨.fence :: tiles.flatMap (tileIdxOps args), [], unit⟩

/-- A Minion that has not begun its next tile. -/
theorem Phase.start (args : GemmArgs) (m0 mem : Memory R) (tiles : List ℕ) (unit : TensorUnit R) :
    Phase args m0 mem tiles ⟨tiles.flatMap (tileIdxOps args), [], unit⟩ := by
  cases tiles with
  | nil => exact .finished unit
  | cons t tiles =>
    rw [tileIdxOps_append]
    exact .round (Nat.zero_le _) fun hpos => absurd hpos (Nat.lt_irrefl 0)

end EtSoc.Gemm

import EtSoc.Verification.Gemm.Accesses

/-! # The instructions of a tile

What the words that the kernel issues ask of the co-processor. -/

namespace EtSoc.Gemm

open Tensor (TensorInstr)

/-- The word at row `i` and column `j` of a matrix. -/
def word (base stride i j : ℕ) : ℕ := base / 4 + i * (stride / 4) + j

/-! ## Rows -/

variable {base stride row col i x : ℕ}

/-- A row of a tile, of whole lines or of quarters of them. -/
theorem tile_word {unit : ℕ} (hunit : unit = 64 ∨ unit = 16) (hbase : 64 ∣ base)
    (hstride : 64 ∣ stride) :
    ((base + row * 16 * stride + col * 16 * 4) / unit + i * (stride / unit)) * (unit / 4) + x =
      word base stride (row * 16 + i) (col * 16 + x) := by
  obtain ⟨β, rfl⟩ := hbase
  obtain ⟨σ, rfl⟩ := hstride
  have hquarter : ∀ y, 64 * y / 4 = 16 * y := fun y => by omega
  rw [word, hquarter, hquarter]
  rcases hunit with rfl | rfl
  · rw [show 64 * β + row * 16 * (64 * σ) + col * 16 * 4 = 64 * (β + row * 16 * σ + col) by ring,
      Nat.mul_div_cancel_left _ (by decide), Nat.mul_div_cancel_left _ (by decide)]
    ring
  · have hsixteenth : 64 * σ / 16 = 4 * σ := by omega
    rw [show 64 * β + row * 16 * (64 * σ) + col * 16 * 4 = 16 * (4 * (β + row * 16 * σ + col)) by
      ring, Nat.mul_div_cancel_left _ (by decide), hsixteenth]
    ring

/-! ## What a tile asks for -/

/-- Matrices that the words of the instructions can address, with the rows of the result apart
from those that it is computed from. -/
structure Layout (args : GemmArgs) : Prop where
  a_le : args.a.toNat + args.m.toNat * args.lda.toNat ≤ 2 ^ 48
  b_le : args.b.toNat + args.k.toNat * args.ldb.toNat ≤ 2 ^ 48
  c_le : args.c.toNat + args.m.toNat * args.ldc.toNat ≤ 2 ^ 48
  a_apart : args.a.toNat + args.m.toNat * args.lda.toNat ≤ args.c.toNat ∨
    args.c.toNat + args.m.toNat * args.ldc.toNat ≤ args.a.toNat
  b_apart : args.b.toNat + args.k.toNat * args.ldb.toNat ≤ args.c.toNat ∨
    args.c.toNat + args.m.toNat * args.ldc.toNat ≤ args.b.toNat

structure Separate (args : GemmArgs) : Prop extends Layout args where
  accepted : Accepted args

/-- The operations that an instruction asks for. -/
def Asks (op : TensorOp) (micros : List Micro) : Prop :=
  ∃ instr, op.instr = some instr ∧ (∀ event, instr ≠ .wait event) ∧ instrMicros instr = micros

section

variable (args : GemmArgs) (tileRow tileCol kTile : ℕ)

def aRow (i : ℕ) : Micro :=
  .loadRow 0 (word args.a.toNat args.lda.toNat (tileRow * 16 + i) (kTile * 16)) i

def bRow (l : ℕ) : Micro :=
  .loadBRow 1 (word args.b.toNat args.ldb.toNat (kTile * 16 + l) (tileCol * 16)) l

def fmaOf : Micro :=
  .fma ⟨3, arows args tileRow, acols args kTile, 0, 1, 0, 0, (kTile == 0).toNat, 0⟩

def cRow (i : ℕ) : Micro :=
  .storeRow (word args.c.toNat args.ldc.toNat (tileRow * 16 + i) (tileCol * 16)) i

end

/-- Where a tile starts is within what an instruction can address. -/
theorem Operand.tile_lt {rows cols tile limit : ℕ} (h : Operand base stride rows cols)
    (hlimit : base + rows * stride ≤ limit) (hrow : row < rows) (htile : tile * 16 < cols) :
    base + row * stride + tile * 16 * 4 < limit := by
  have hwithin := (h.rowAt hrow htile).within.2
  simp only [tensorAlign] at hwithin
  omega

theorem line_mod {addr : ℕ} (h : addr < 2 ^ 48) : addr / 64 % 2 ^ 42 = addr / 64 :=
  Nat.mod_eq_of_lt (by omega)

theorem chunk_mod {addr : ℕ} (h : addr < 2 ^ 48) : addr / 16 % 2 ^ 44 = addr / 16 :=
  Nat.mod_eq_of_lt (by omega)

variable {args : GemmArgs} {tileRow tileCol kTile : ℕ}

theorem Separate.asks_load (h : Separate args) (hrow : tileRow * 16 < args.m.toNat)
    (hk : kTile * 16 < args.k.toNat) :
    Asks (.load (aAddr args tileRow kTile) 0 (arows args tileRow) false args.lda.toNat)
      ((List.range (arows args tileRow + 1)).map (aRow args tileRow kTile)) := by
  have hA := h.accepted.a
  have haddr := hA.tile_lt h.a_le hrow hk
  have hinstr := instr_load (haddr.trans (by decide)) (arows_lt args tileRow) args.lda.toNat_lt
    hA.stride_aligned
  rw [line_mod haddr] at hinstr
  refine ⟨_, hinstr, fun _ => TensorInstr.noConfusion, List.map_congr_left fun i _ => ?_⟩
  rw [aRow, ← Nat.add_zero (kTile * 16), ← tile_word (.inl rfl) hA.base_aligned hA.stride_aligned,
    Nat.zero_add]
  rfl

theorem Separate.asks_loadB (h : Separate args) (hcol : tileCol * 16 < args.n.toNat)
    (hk : kTile * 16 < args.k.toNat) :
    Asks (.loadB (bAddr args kTile tileCol) (acols args kTile) false args.ldb.toNat true)
      ((List.range (acols args kTile + 1)).map (bRow args tileCol kTile)) := by
  have hB := h.accepted.b
  have haddr := hB.tile_lt h.b_le hk hcol
  have hinstr := instr_loadB (haddr.trans (by decide)) (acols_lt args kTile) args.ldb.toNat_lt
    hB.stride_aligned
  rw [line_mod haddr] at hinstr
  refine ⟨_, hinstr, fun _ => TensorInstr.noConfusion, List.map_congr_left fun i _ => ?_⟩
  rw [bRow, ← Nat.add_zero (tileCol * 16), ← tile_word (.inl rfl) hB.base_aligned hB.stride_aligned]
  rfl

theorem asks_fma (args : GemmArgs) (tileRow kTile : ℕ) :
    Asks (.fma (fmaXs args tileRow kTile)) [fmaOf args tileRow kTile] :=
  ⟨_, instr_fma (arows_lt args tileRow) (acols_lt args kTile) (kTile == 0),
    fun _ => TensorInstr.noConfusion, rfl⟩

theorem Separate.asks_store (h : Separate args) (hrow : tileRow * 16 < args.m.toNat)
    (hcol : tileCol * 16 < args.n.toNat) :
    Asks (.store (cAddr args tileRow tileCol) (arows args tileRow) args.ldc.toNat)
      ((List.range (arows args tileRow + 1)).map (cRow args tileRow tileCol)) := by
  have hC := h.accepted.c
  have haddr := hC.tile_lt h.c_le hrow hcol
  have hinstr := instr_store (haddr.trans (by decide)) (arows_lt args tileRow) args.ldc.toNat_lt
  rw [chunk_mod haddr] at hinstr
  refine ⟨_, hinstr, fun _ => TensorInstr.noConfusion, List.map_congr_left fun i _ => ?_⟩
  rw [cRow, ← Nat.add_zero (tileCol * 16), ← tile_word (.inr rfl) hC.base_aligned hC.stride_aligned]
  rfl

/-! ## Issuing -/

variable {R : Type*} {op : TensorOp} {micros pending : List Micro} {rest : List TensorOp}
  {unit : TensorUnit R}

theorem Asks.issue (h : Asks op micros) :
    Core.issue ⟨op :: rest, pending, unit⟩ = ⟨rest, pending ++ micros, unit⟩ := by
  obtain ⟨instr, hinstr, hwait, rfl⟩ := h
  simp only [Core.issue, hinstr]

theorem issue_fence :
    Core.issue ⟨.fence :: rest, pending, unit⟩ = ⟨rest, pending, unit⟩ := rfl

theorem issue_wait (event : TensorEvent) :
    Core.issue ⟨.wait event :: rest, pending, unit⟩ =
      if ∀ micro ∈ pending, micro.event ≠ event.code.toU64.toNat then ⟨rest, pending, unit⟩
      else ⟨.wait event :: rest, pending, unit⟩ := by
  simp only [Core.issue, instr_wait]

end EtSoc.Gemm

import EtSoc.Verification.Gemm.Operands

/-! # Tiles

The instructions that each hart issues, tile after tile. -/

namespace EtSoc.Gemm

variable (args : GemmArgs)

def nTileM : ℕ := divCeil args.m.toNat gemmTileM
def nTileN : ℕ := divCeil args.n.toNat gemmTileN
def nTileK : ℕ := divCeil args.k.toNat gemmTileK
def nTiles : ℕ := nTileM args * nTileN args

/-- One less than the rows of `C` in the tiles of row `tileRow`. -/
def arows (tileRow : ℕ) : ℕ := min 16 (args.m.toNat - tileRow * 16) - 1

/-- One less than the columns of `A` in round `kTile`. -/
def acols (kTile : ℕ) : ℕ := min 16 (args.k.toNat - kTile * 16) - 1

def aAddr (tileRow kTile : ℕ) : ℕ :=
  args.a.toNat + tileRow * 16 * args.lda.toNat + kTile * 16 * 4

def bAddr (kTile tileCol : ℕ) : ℕ :=
  args.b.toNat + kTile * 16 * args.ldb.toNat + tileCol * 16 * 4

def cAddr (tileRow tileCol : ℕ) : ℕ :=
  args.c.toNat + tileRow * 16 * args.ldc.toNat + tileCol * 16 * 4

def fmaXs (tileRow kTile : ℕ) : UInt64 :=
  fma32Xs 3 (.ofNat (arows args tileRow)) (.ofNat (acols args kTile)) 0 true 0 0 (kTile == 0) false

/-- What is issued for a tile of `C` and a round over the inner dimension. -/
def roundOps (tileRow tileCol kTile : ℕ) : List TensorOp :=
  [.load (aAddr args tileRow kTile) 0 (arows args tileRow) false args.lda.toNat, .wait .load0,
    .loadB (bAddr args kTile tileCol) (acols args kTile) false args.ldb.toNat true,
    .fma (fmaXs args tileRow kTile), .wait .fma]

def storeOps (tileRow tileCol : ℕ) : List TensorOp :=
  [.store (cAddr args tileRow tileCol) (arows args tileRow) args.ldc.toNat, .wait .store, .fence]

/-- What is issued for a tile of `C`. -/
def tileOps (tileRow tileCol : ℕ) : List TensorOp :=
  (List.range (nTileK args)).flatMap (roundOps args tileRow tileCol) ++ storeOps args tileRow tileCol

def shireSize : ℕ := divCeil (nTiles args) args.nShires.toNat

/-- The tiles that hart `h` computes. -/
def tilesOf (h : UInt32) : List ℕ :=
  if h.toNat % 2 = 0 ∧ h.toNat / 64 < args.nShires.toNat then
    (tileLoop (min (nTiles args - h.toNat / 64 * shireSize args) (shireSize args))
      (h.toNat % 64 / 2)).map (h.toNat / 64 * shireSize args + ·)
  else
    []

def tileIdxOps (tileIdx : ℕ) : List TensorOp :=
  tileOps args (tileIdx / nTileN args) (tileIdx % nTileN args)

/-! ## Bounds -/

theorem mem_tileLoop {shireEnd index i : ℕ} :
    i ∈ tileLoop shireEnd index ↔ ∃ j, i = index + minionsPerShire * j ∧ i < shireEnd := by
  induction index using tileLoop.induct shireEnd with
  | case1 index hlt ih =>
    rw [tileLoop, if_pos hlt, List.mem_cons, ih]
    constructor
    · rintro (rfl | ⟨j, rfl, hj⟩)
      · exact ⟨0, rfl, hlt⟩
      · exact ⟨j + 1, by rw [Nat.mul_succ]; omega, hj⟩
    · rintro ⟨j, rfl, hj⟩
      cases j with
      | zero => exact .inl rfl
      | succ j => exact .inr ⟨j, by rw [Nat.mul_succ]; omega, hj⟩
  | case2 index hlt =>
    rw [tileLoop, if_neg hlt]
    refine iff_of_false (by simp) ?_
    rintro ⟨j, rfl, hj⟩
    omega

variable {args} {tileRow tileCol kTile tileIdx : ℕ}

theorem tilesOf_lt {h : UInt32} (htile : tileIdx ∈ tilesOf args h) : tileIdx < nTiles args := by
  unfold tilesOf at htile
  split at htile
  · obtain ⟨i, hi, rfl⟩ := List.mem_map.1 htile
    obtain ⟨j, -, hlt⟩ := mem_tileLoop.1 hi
    omega
  · simp at htile

theorem tile_row_lt (htile : tileIdx < nTiles args) :
    tileIdx / nTileN args * 16 < args.m.toNat :=
  lt_divCeil_iff.1 (Nat.div_lt_of_lt_mul (by rwa [Nat.mul_comm]))

theorem tile_col_lt (htile : tileIdx < nTiles args) : tileIdx % nTileN args * 16 < args.n.toNat := by
  refine lt_divCeil_iff.1 (Nat.mod_lt _ (Nat.pos_of_ne_zero fun hzero => ?_))
  rw [nTiles, hzero] at htile
  omega

theorem arows_lt (args : GemmArgs) (tileRow : ℕ) : arows args tileRow < 16 := by
  rw [arows]
  omega

theorem acols_lt (args : GemmArgs) (kTile : ℕ) : acols args kTile < 16 := by
  rw [acols]
  omega

/-! ## Every tile has its Minion -/

theorem nTiles_le_mul (h : Accepted args) :
    nTiles args ≤ args.nShires.toNat * shireSize args := by
  have hpos := h.shires_pos
  have hmod := Nat.mod_lt (nTiles args + args.nShires.toNat - 1) hpos
  have hdiv := Nat.div_add_mod (nTiles args + args.nShires.toNat - 1) args.nShires.toNat
  rw [shireSize, divCeil]
  omega

theorem exists_hart (h : Accepted args) {t : ℕ} (ht : t < nTiles args) :
    ∃ hart : UInt32, hart.toNat < 64 * args.nShires.toNat ∧ t ∈ tilesOf args hart := by
  have hle := h.shires_le
  have hcover := nTiles_le_mul h
  have hpos : 0 < shireSize args := Nat.pos_of_mul_pos_left (by omega : 0 < args.nShires.toNat * _)
  have hshire : t / shireSize args < args.nShires.toNat :=
    Nat.div_lt_of_lt_mul (by rw [Nat.mul_comm]; omega)
  have hlocal := Nat.mod_lt t hpos
  have hsplit := Nat.div_add_mod t (shireSize args)
  rw [Nat.mul_comm] at hsplit
  have hminion := Nat.mod_lt (t % shireSize args) (show 0 < 32 by decide)
  have hhart : (UInt32.ofNat (t / shireSize args * 64 + t % shireSize args % 32 * 2)).toNat =
      t / shireSize args * 64 + t % shireSize args % 32 * 2 := by
    refine UInt32.toNat_ofNat_of_lt' ?_
    rw [show UInt32.size = 2 ^ 32 from rfl]
    omega
  refine ⟨_, by rw [hhart]; omega, ?_⟩
  have hshireOf : (t / shireSize args * 64 + t % shireSize args % 32 * 2) / 64 =
      t / shireSize args := by omega
  have hminionOf : (t / shireSize args * 64 + t % shireSize args % 32 * 2) % 64 / 2 =
      t % shireSize args % 32 := by omega
  rw [tilesOf, hhart, hshireOf, hminionOf, if_pos ⟨by omega, hshire⟩, List.mem_map]
  refine ⟨t % shireSize args, mem_tileLoop.2 ⟨t % shireSize args / 32, ?_, ?_⟩, hsplit⟩
  · rw [minionsPerShire]
    omega
  · omega

/-- The tile and the row of it that a number of the result is in. -/
theorem exists_tile {i j : ℕ} (hi : i < args.m.toNat) (hj : j < args.n.toNat) :
    ∃ t < nTiles args, t / nTileN args = i / 16 ∧ t % nTileN args = j / 16 := by
  have hrow : i / 16 < nTileM args := lt_divCeil_iff.2 (by omega)
  have hcol : j / 16 < nTileN args := lt_divCeil_iff.2 (by omega)
  have hpos : 0 < nTileN args := by omega
  refine ⟨i / 16 * nTileN args + j / 16, ?_, ?_, ?_⟩
  · calc i / 16 * nTileN args + j / 16 < i / 16 * nTileN args + nTileN args := by omega
      _ = (i / 16 + 1) * nTileN args := (Nat.succ_mul ..).symm
      _ ≤ nTileM args * nTileN args := Nat.mul_le_mul_right _ hrow
  · rw [Nat.add_comm, Nat.add_mul_div_right _ _ hpos, Nat.div_eq_of_lt hcol, Nat.zero_add]
  · rw [Nat.add_comm, Nat.add_mul_mod_self_right, Nat.mod_eq_of_lt hcol]

/-! ## What is issued -/

theorem mapM_some {α β : Type} {f : α → Option β} {g : α → β} {xs : List α}
    (h : ∀ x ∈ xs, f x = some (g x)) : xs.mapM f = some (xs.map g) := by
  induction xs with
  | nil => rfl
  | cons x xs ih =>
    rw [List.mapM_cons, h x List.mem_cons_self, ih fun y hy => h y (List.mem_cons_of_mem _ hy)]
    rfl

variable (h : Accepted args)
include h

theorem kTileOps_eq (hrow : tileRow * 16 < args.m.toNat) (hcol : tileCol * 16 < args.n.toNat)
    (hk : kTile * 16 < args.k.toNat) :
    kTileOps args (tileRow * 16) (tileCol * 16) (arows args tileRow) kTile =
      some (roundOps args tileRow tileCol kTile) := by
  have hsize := args.k.toNat_lt
  rw [kTileOps, gemmTileK, fits64, if_pos (by omega), Option.bind_eq_bind, Option.bind_some, sub64,
    if_pos hk.le, Option.bind_some, sub64, if_pos (by omega), Option.bind_some,
    h.a.tileAddr_eq hrow hk, Option.bind_some, h.b.tileAddr_eq hk hcol, Option.bind_some]
  rfl

theorem computeTile_eq (hrow : tileRow * 16 < args.m.toNat) (hcol : tileCol * 16 < args.n.toNat) :
    computeTile args tileRow tileCol = some (tileOps args tileRow tileCol) := by
  have hm := args.m.toNat_lt
  have hn := args.n.toNat_lt
  have hrounds : (List.range (divCeil args.k.toNat gemmTileK)).mapM
      (kTileOps args (tileRow * 16) (tileCol * 16) (arows args tileRow)) =
      some ((List.range (nTileK args)).map (roundOps args tileRow tileCol)) :=
    mapM_some fun kTile hk => kTileOps_eq h hrow hcol (lt_divCeil_iff.1 (List.mem_range.1 hk))
  rw [computeTile, gemmTileM, gemmTileN, fits64, fits64, if_pos (by omega), if_pos (by omega),
    Option.bind_eq_bind, Option.bind_some, Option.bind_some, sub64, if_pos hrow.le, Option.bind_some,
    sub64, if_pos (by omega), Option.bind_some]
  rw [show min 16 (args.m.toNat - tileRow * 16) - 1 = arows args tileRow from rfl, hrounds,
    Option.bind_eq_bind, Option.bind_some, h.c.tileAddr_eq hrow hcol, Option.bind_some]
  rfl

omit h in
theorem nTiles_le (args : GemmArgs) : nTiles args ≤ 2 ^ 56 := by
  have hm := args.m.toNat_lt
  have hn := args.n.toNat_lt
  have hM : nTileM args ≤ 2 ^ 28 := by
    simp only [nTileM, divCeil, gemmTileM]
    omega
  have hN : nTileN args ≤ 2 ^ 28 := by
    simp only [nTileN, divCeil, gemmTileN]
    omega
  calc nTileM args * nTileN args ≤ 2 ^ 28 * 2 ^ 28 := Nat.mul_le_mul hM hN
    _ = 2 ^ 56 := by omega

theorem shireSize_le : shireSize args ≤ nTiles args := by
  rw [shireSize, divCeil, ← Nat.lt_succ_iff]
  have hpos := h.shires_pos
  refine Nat.div_lt_of_lt_mul ?_
  have : args.nShires.toNat * 1 ≤ args.nShires.toNat * (nTiles args + 1) :=
    Nat.mul_le_mul_left _ (by omega)
  have : nTiles args * 1 ≤ nTiles args * args.nShires.toNat := Nat.mul_le_mul_left _ hpos
  rw [Nat.mul_succ, Nat.mul_comm]
  omega

/-- Every hart issues the instructions of its tiles, and nothing overflows. -/
theorem entryPoint_eq (hart : UInt32) :
    entryPoint args hart = some ((tilesOf args hart).flatMap (tileIdxOps args)) := by
  have hpos := h.shires_pos
  have hle := h.shires_le
  have htiles := nTiles_le args
  have hsize := shireSize_le h
  have hhart := hart.toNat_lt
  unfold entryPoint tilesOf
  by_cases hodd : hart.toNat % 2 ≠ 0
  · rw [if_pos hodd, if_neg (fun h => hodd h.1)]
    rfl
  rw [if_neg hodd]
  have htotal : args.nShires.toNat % 2 ^ 32 * minionsPerShire % 2 ^ 32 =
      args.nShires.toNat * 32 := by
    simp only [minionsPerShire]
    omega
  have hmy : (hart.toNat / 64 * minionsPerShire + hart.toNat % 64 / 2) % 2 ^ 32 =
      hart.toNat / 64 * 32 + hart.toNat % 64 / 2 := by
    simp only [minionsPerShire]
    omega
  simp only [htotal, hmy]
  by_cases hshire : hart.toNat / 64 < args.nShires.toNat
  · rw [if_neg (by omega), if_pos ⟨by omega, hshire⟩]
    have hbase : hart.toNat / 64 * shireSize args ≤ 63 * 2 ^ 56 :=
      Nat.mul_le_mul (by omega) (hsize.trans htiles)
    have hmap : (tileLoop (min (nTiles args - hart.toNat / 64 * shireSize args) (shireSize args))
        (hart.toNat % 64 / 2)).mapM (tileAt args (hart.toNat / 64 * shireSize args)) =
        some ((tileLoop (min (nTiles args - hart.toNat / 64 * shireSize args) (shireSize args))
          (hart.toNat % 64 / 2)).map
            fun i => tileIdxOps args (hart.toNat / 64 * shireSize args + i)) := by
      refine mapM_some fun i hi => ?_
      obtain ⟨j, -, hlt⟩ := mem_tileLoop.1 hi
      have htile : hart.toNat / 64 * shireSize args + i < nTiles args := by omega
      rw [tileAt, fits64, if_pos (by omega), Option.bind_eq_bind, Option.bind_some]
      exact computeTile_eq h (tile_row_lt htile) (tile_col_lt htile)
    have htilesFit : fits64 (divCeil args.m.toNat gemmTileM * divCeil args.n.toNat gemmTileN) =
        some (nTiles args) := if_pos (htiles.trans_lt (by omega))
    have hbaseFit : fits64 (hart.toNat / 64 * divCeil (nTiles args) args.nShires.toNat) =
        some (hart.toNat / 64 * shireSize args) := if_pos (hbase.trans_lt (by omega))
    rw [htilesFit, Option.bind_eq_bind, Option.bind_some, hbaseFit, Option.bind_some]
    rw [show divCeil (nTiles args) args.nShires.toNat = shireSize args from rfl, hmap,
      Option.bind_eq_bind, Option.bind_some, List.flatMap_def, List.map_map]
    rfl
  · rw [if_pos (by omega), if_neg (fun h => hshire h.2)]
    rfl

end EtSoc.Gemm

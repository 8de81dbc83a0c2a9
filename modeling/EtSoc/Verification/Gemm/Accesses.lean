import EtSoc.Model.Coprocessor
import EtSoc.Verification.Gemm.Tiles
import EtSoc.Verification.Kernel.TensorWords
import EtSoc.Verification.Session.Allocations

/-! # Memory safety

Which rows the kernel loads and stores, and when all of them lie in their matrices. -/

namespace EtSoc.Gemm

open Program
open Tensor (TensorInstr)

/-! ## Decoding -/

section
variable {addr rows stride : ℕ}

theorem toNat_ofNat64 {x : ℕ} (h : x < 2 ^ 64) : (UInt64.ofNat x).toNat = x :=
  UInt64.toNat_ofNat_of_lt' (by rwa [show UInt64.size = 2 ^ 64 from rfl])

theorem toNat_ofNat8 {x : ℕ} (h : x < 16) : (UInt8.ofNat x).toNat = x := by
  rw [UInt8.toNat_ofNat_of_lt']
  rw [show UInt8.size = 256 from rfl]
  omega

theorem instr_load (haddr : addr < 2 ^ 64) (hrows : rows < 16) (hstride : stride < 2 ^ 32)
    (haligned : 64 ∣ stride) :
    (TensorOp.load addr 0 rows false stride).instr =
      some (.load (addr / 64 % 2 ^ 42) 0 rows 0 (stride / 64)) := by
  have hcount : rows % 2 ^ 4 = rows := Nat.mod_eq_of_lt hrows
  have hbytes : (UInt64.ofNat stride).toNat = stride := toNat_ofNat64 (by omega)
  have hid := Tensor.mixedId_of_stride (x := .ofNat stride) false (by omega)
  rw [TensorOp.instr, TensorOp.write, Option.bind_some, Tensor.decode_tensorLoad,
    Tensor.TensorCall.mixed, hid, Tensor.TensorCall.operands, toNat_ofNat64 haddr, hbytes,
    toNat_ofNat8 hrows, hcount]
  rfl

theorem instr_loadB (haddr : addr < 2 ^ 64) (hrows : rows < 16) (hstride : stride < 2 ^ 32)
    (haligned : 64 ∣ stride) :
    (TensorOp.loadB addr rows false stride true).instr =
      some (.loadB (addr / 64 % 2 ^ 42) rows 0 (stride / 64) 1) := by
  have hcount : rows % 2 ^ 4 = rows := Nat.mod_eq_of_lt hrows
  have hbytes : (UInt64.ofNat stride).toNat = stride := toNat_ofNat64 (by omega)
  have hid := Tensor.mixedId_of_stride (x := .ofNat stride) true (by omega)
  rw [TensorOp.instr, TensorOp.write, Option.bind_some, Tensor.decode_tensorLoadB,
    Tensor.TensorCall.mixed, hid, Tensor.TensorCall.operands, toNat_ofNat64 haddr, hbytes,
    toNat_ofNat8 hrows, hcount]
  rfl

theorem instr_store (haddr : addr < 2 ^ 64) (hrows : rows < 16) (hstride : stride < 2 ^ 32) :
    (TensorOp.store addr rows stride).instr =
      some (.store (addr / 16 % 2 ^ 44) rows (stride / 16)) := by
  have hcount : rows % 2 ^ 4 = rows := Nat.mod_eq_of_lt hrows
  have hchunk : stride / 16 % 2 ^ 44 = stride / 16 := Nat.mod_eq_of_lt (by omega)
  rw [TensorOp.instr, TensorOp.write, Option.bind_some, Tensor.decode_tensorStore,
    Tensor.TensorCall.operands, toNat_ofNat64 haddr, toNat_ofNat64 (by omega),
    toNat_ofNat8 hrows, hcount, hchunk]

theorem instr_fma {acols : ℕ} (hrows : rows < 16) (hcols : acols < 16) (first : Bool) :
    (TensorOp.fma (fma32Xs 3 (.ofNat rows) (.ofNat acols) 0 true 0 0 first false)).instr =
      some (.fma32 3 rows acols 0 1 0 0 first.toNat 0) := by
  have hcount : rows % 2 ^ 4 = rows := Nat.mod_eq_of_lt hrows
  have hcols' : acols % 2 ^ 4 = acols := Nat.mod_eq_of_lt hcols
  have hdecode := Tensor.decode_fma32 3 (.ofNat rows) (.ofNat acols) 0 true 0 0 first false
  rw [Tensor.TensorCall.write] at hdecode
  rw [TensorOp.instr, TensorOp.write, Option.bind_some, hdecode, Tensor.TensorCall.operands,
    toNat_ofNat8 hrows, toNat_ofNat8 hcols, hcount, hcols']
  rfl

theorem instr_wait (event : TensorEvent) :
    (TensorOp.wait event).instr = some (.wait event.code.toU64.toNat) := by
  rw [TensorOp.instr, TensorOp.write, Option.bind_some, Tensor.decode_tensorWait]
  rfl

/-! ## Accesses -/

inductive Matrix where
  | a
  | b
  | c
deriving DecidableEq, Repr

/-- The rows of 64 bytes that the co-processor accesses for an instruction: their matrices and
addresses. -/
def instrAccesses : TensorInstr → List (Matrix × ℕ)
  | .load line _ rows _ stride =>
    (List.range (rows + 1)).map fun i => (.a, (line + i * stride) * 64)
  | .loadB line rows _ stride _ =>
    (List.range (rows + 1)).map fun i => (.b, (line + i * stride) * 64)
  | .store addr rows stride =>
    (List.range (rows + 1)).map fun i => (.c, (addr + i * stride) * 16)
  | _ => []

/-- The co-processor goes by the word that it is given, which holds 48 bits of an address. -/
def TensorOp.accesses (op : TensorOp) : List (Matrix × ℕ) := op.instr.toList.flatMap instrAccesses

/-- The addresses of the rows of a tile whose first word is at `addr`. -/
def rowAddrs (addr rows stride : ℕ) : List ℕ :=
  (List.range (rows + 1)).map fun i => addr % 2 ^ 48 + i * stride

theorem line_mul {line : ℕ} (haddr : 64 ∣ addr) (hstride : 64 ∣ stride) (i : ℕ)
    (hline : line = addr / 64 % 2 ^ 42) :
    (line + i * (stride / 64)) * 64 = addr % 2 ^ 48 + i * stride := by
  obtain ⟨α, rfl⟩ := haddr
  obtain ⟨σ, rfl⟩ := hstride
  have hmul : i * (64 * σ) = 64 * (i * σ) := by ring
  rw [hline, hmul, Nat.mul_div_cancel_left _ (by decide), Nat.mul_div_cancel_left _ (by decide)]
  omega

theorem accesses_load (haddr : addr < 2 ^ 64) (hrows : rows < 16) (hstride : stride < 2 ^ 32)
    (haligned : 64 ∣ addr) (hstride' : 64 ∣ stride) :
    (TensorOp.load addr 0 rows false stride).accesses = (rowAddrs addr rows stride).map (.a, ·) := by
  rw [TensorOp.accesses, instr_load haddr hrows hstride hstride', rowAddrs, List.map_map]
  simp only [Option.toList_some, List.flatMap_cons, List.flatMap_nil, List.append_nil, instrAccesses]
  exact List.map_congr_left fun i _ => congrArg (Prod.mk _) (line_mul haligned hstride' i rfl)

theorem accesses_loadB (haddr : addr < 2 ^ 64) (hrows : rows < 16) (hstride : stride < 2 ^ 32)
    (haligned : 64 ∣ addr) (hstride' : 64 ∣ stride) :
    (TensorOp.loadB addr rows false stride true).accesses =
      (rowAddrs addr rows stride).map (.b, ·) := by
  rw [TensorOp.accesses, instr_loadB haddr hrows hstride hstride', rowAddrs, List.map_map]
  simp only [Option.toList_some, List.flatMap_cons, List.flatMap_nil, List.append_nil, instrAccesses]
  exact List.map_congr_left fun i _ => congrArg (Prod.mk _) (line_mul haligned hstride' i rfl)

theorem accesses_store (haddr : addr < 2 ^ 64) (hrows : rows < 16) (hstride : stride < 2 ^ 32)
    (haligned : 64 ∣ addr) (hstride' : 64 ∣ stride) :
    (TensorOp.store addr rows stride).accesses = (rowAddrs addr rows stride).map (.c, ·) := by
  rw [TensorOp.accesses, instr_store haddr hrows hstride, rowAddrs, List.map_map]
  simp only [Option.toList_some, List.flatMap_cons, List.flatMap_nil, List.append_nil, instrAccesses]
  refine List.map_congr_left fun i _ => congrArg (Prod.mk _) ?_
  refine Eq.trans ?_ (line_mul haligned hstride' i rfl)
  obtain ⟨α, rfl⟩ := haligned
  obtain ⟨σ, rfl⟩ := hstride'
  have hmul : i * (64 * σ / 16) = 4 * (i * (64 * σ / 64)) := by
    rw [Nat.mul_div_cancel_left _ (by decide), show 64 * σ / 16 = 4 * σ by omega]
    ring
  rw [hmul]
  omega

theorem accesses_fma {acols : ℕ} (hrows : rows < 16) (hcols : acols < 16) (first : Bool) :
    (TensorOp.fma (fma32Xs 3 (.ofNat rows) (.ofNat acols) 0 true 0 0 first false)).accesses = [] := by
  rw [TensorOp.accesses, instr_fma hrows hcols]
  rfl

theorem accesses_wait (event : TensorEvent) : (TensorOp.wait event).accesses = [] := by
  rw [TensorOp.accesses, instr_wait]
  rfl

theorem accesses_fence : TensorOp.fence.accesses = [] := rfl

end

def GemmArgs.base (args : GemmArgs) : Matrix → ℕ
  | .a => args.a.toNat
  | .b => args.b.toNat
  | .c => args.c.toNat

def GemmArgs.stride (args : GemmArgs) : Matrix → ℕ
  | .a => args.lda.toNat
  | .b => args.ldb.toNat
  | .c => args.ldc.toNat

def GemmArgs.rows (args : GemmArgs) : Matrix → ℕ
  | .a | .c => args.m.toNat
  | .b => args.k.toNat

def GemmArgs.cols (args : GemmArgs) : Matrix → ℕ
  | .a => args.k.toNat
  | .b | .c => args.n.toNat

/-- No hart computes an address that overflows, and all rows that a hart accesses are
aligned and inside rows of their matrices. -/
def StaysInRows (args : GemmArgs) : Prop :=
  ∀ hart, ∃ ops, entryPoint args hart = some ops ∧ ∀ access ∈ ops.flatMap TensorOp.accesses,
    RowAt (args.base access.1) (args.stride access.1) (args.rows access.1) access.2

/-- Where the tile at `row` and `col` of a matrix starts. -/
def GemmArgs.tileStart (args : GemmArgs) (matrix : Matrix) (row col : ℕ) : ℕ :=
  args.base matrix + row * 16 * args.stride matrix + col * 16 * 4

/-- The low 48 bits of where a tile starts are never below the matrix that the tile is of. -/
def Addressable (args : GemmArgs) : Prop :=
  ∀ matrix row col, row * 16 < args.rows matrix → col * 16 < args.cols matrix →
    args.base matrix ≤ args.tileStart matrix row col % 2 ^ 48

/-- The matrices end below what an instruction can address. -/
def BelowLimit (args : GemmArgs) : Prop :=
  ∀ matrix, args.base matrix + args.rows matrix * args.stride matrix ≤ 2 ^ 48

/-! ## The rows of a tile -/

section
variable {addr rows stride : ℕ}

/-- Where a row is inside a matrix. -/
theorem RowAt.within {base : ℕ} (h : RowAt base stride rows addr) :
    base ≤ addr ∧ addr + tensorAlign ≤ base + rows * stride := by
  obtain ⟨r, hr, hstart, hend⟩ := h.inRow
  have hmul : (r + 1) * stride ≤ rows * stride := Nat.mul_le_mul_right _ hr
  omega

/-- An aligned address in the extent of a matrix is inside one of its rows. -/
theorem Operand.rowAt_of_within {base cols : ℕ} (h : Operand base stride rows cols)
    (haligned : tensorAlign ∣ addr) (hbase : base ≤ addr)
    (hend : addr + tensorAlign ≤ base + rows * stride) (hfits : addr + tensorAlign ≤ 2 ^ 64) :
    RowAt base stride rows addr := by
  obtain ⟨β, hβ⟩ := h.base_aligned
  obtain ⟨σ, hσ⟩ := h.stride_aligned
  obtain ⟨α, hα⟩ := haligned
  have hpos : 0 < stride := by
    refine Nat.pos_of_ne_zero fun hzero => ?_
    rw [hzero, Nat.mul_zero, tensorAlign] at hend
    omega
  have hdiv := Nat.div_add_mod (addr - base) stride
  have hmod := Nat.mod_lt (addr - base) hpos
  have hrow : (addr - base) / stride < rows :=
    Nat.div_lt_of_lt_mul (by rw [tensorAlign, Nat.mul_comm] at hend; omega)
  -- What is left of a row is a multiple of the alignment.
  have hrest : 64 ∣ (addr - base) % stride :=
    (Nat.dvd_mod_iff (hσ ▸ Nat.dvd_mul_right ..)).2 ⟨α - β, by rw [tensorAlign] at *; omega⟩
  rw [Nat.mul_comm] at hdiv
  refine ⟨⟨α, hα⟩, ⟨(addr - base) / stride, hrow, by omega, ?_⟩, hfits⟩
  rw [Nat.succ_mul]
  simp only [tensorAlign] at *
  omega

/-- The rows of a tile are in consecutive rows of the operand. -/
theorem Operand.rowAt_tile {base cols : ℕ} (h : Operand base stride rows cols)
    {row tile count : ℕ} (hrow : row * 16 < rows) (htile : tile * 16 < cols)
    (hcount : count ≤ min 16 (rows - row * 16) - 1) {i : ℕ} (hi : i ≤ count) :
    RowAt base stride rows (base + row * 16 * stride + tile * 16 * 4 + i * stride) := by
  have hlast : row * 16 + i < rows := by omega
  have haddr := h.rowAt hlast htile
  rwa [Nat.add_mul, ← Nat.add_assoc, Nat.add_right_comm _ (i * stride)] at haddr

/-- The rows of a tile that the co-processor accesses are inside the operand if the first is not
below it. -/
theorem Operand.rowAt_rowAddrs {base cols : ℕ} (h : Operand base stride rows cols)
    {row tile count : ℕ} (hrow : row * 16 < rows) (htile : tile * 16 < cols)
    (hcount : count ≤ min 16 (rows - row * 16) - 1)
    (hbase : base ≤ (base + row * 16 * stride + tile * 16 * 4) % 2 ^ 48)
    (haddr : addr ∈ rowAddrs (base + row * 16 * stride + tile * 16 * 4) count stride) :
    RowAt base stride rows addr := by
  obtain ⟨i, hi, rfl⟩ := List.mem_map.1 haddr
  have hi := List.mem_range.1 hi
  have hfull := h.rowAt_tile hrow htile hcount (Nat.lt_succ_iff.1 hi)
  have hle := Nat.mod_le (base + row * 16 * stride + tile * 16 * 4) (2 ^ 48)
  have hend := hfull.within.2
  have hfits := hfull.addressable
  have hstart := (h.rowAt hrow htile).aligned
  have haligned : tensorAlign ∣ (base + row * 16 * stride + tile * 16 * 4) % 2 ^ 48 + i * stride :=
    Nat.dvd_add ((Nat.dvd_mod_iff (by decide)).2 hstart) (h.stride_aligned.mul_left i)
  exact h.rowAt_of_within haligned (hbase.trans (Nat.le_add_right ..)) (by omega) (by omega)

end

variable {args : GemmArgs}

theorem Accepted.operand (h : Accepted args) (matrix : Matrix) :
    Operand (args.base matrix) (args.stride matrix) (args.rows matrix) (args.cols matrix) := by
  cases matrix with
  | a => exact h.a
  | b => exact h.b
  | c => exact h.c

/-- The tiles that are accessed for a tile of `C`: their matrices, rows, columns and heights. -/
def tilesAccessed (args : GemmArgs) (tileRow tileCol : ℕ) : List (Matrix × ℕ × ℕ × ℕ) :=
  (List.range (nTileK args)).flatMap (fun kTile =>
    [(.a, tileRow, kTile, arows args tileRow), (.b, kTile, tileCol, acols args kTile)]) ++
      [(.c, tileRow, tileCol, arows args tileRow)]

def tileAccesses (args : GemmArgs) (tile : Matrix × ℕ × ℕ × ℕ) : List (Matrix × ℕ) :=
  (rowAddrs (args.tileStart tile.1 tile.2.1 tile.2.2.1) tile.2.2.2 (args.stride tile.1)).map
    (tile.1, ·)

theorem mem_tilesAccessed {tileRow tileCol row col count : ℕ} {matrix : Matrix}
    (hrow : tileRow * 16 < args.m.toNat) (hcol : tileCol * 16 < args.n.toNat)
    (h : (matrix, row, col, count) ∈ tilesAccessed args tileRow tileCol) :
    row * 16 < args.rows matrix ∧ col * 16 < args.cols matrix ∧
      count ≤ min 16 (args.rows matrix - row * 16) - 1 := by
  rcases List.mem_append.1 h with h | h
  · obtain ⟨kTile, hk, h⟩ := List.mem_flatMap.1 h
    have hk : kTile * 16 < args.k.toNat := lt_divCeil_iff.1 (List.mem_range.1 hk)
    simp only [List.mem_cons, List.not_mem_nil, or_false, Prod.mk.injEq] at h
    rcases h with ⟨rfl, rfl, rfl, rfl⟩ | ⟨rfl, rfl, rfl, rfl⟩
    · exact ⟨hrow, hk, le_rfl⟩
    · exact ⟨hk, hcol, le_rfl⟩
  · simp only [List.mem_cons, List.not_mem_nil, or_false, Prod.mk.injEq] at h
    obtain ⟨rfl, rfl, rfl, rfl⟩ := h
    exact ⟨hrow, hcol, le_rfl⟩

theorem accesses_roundOps (h : Accepted args) {tileRow tileCol kTile : ℕ}
    (hrow : tileRow * 16 < args.m.toNat) (hcol : tileCol * 16 < args.n.toNat)
    (hk : kTile * 16 < args.k.toNat) :
    (roundOps args tileRow tileCol kTile).flatMap TensorOp.accesses =
      tileAccesses args (.a, tileRow, kTile, arows args tileRow) ++
        tileAccesses args (.b, kTile, tileCol, acols args kTile) := by
  have hA : RowAt _ _ _ (aAddr args tileRow kTile) := h.a.rowAt hrow hk
  have hB : RowAt _ _ _ (bAddr args kTile tileCol) := h.b.rowAt hk hcol
  have hfitsA := hA.addressable
  have hfitsB := hB.addressable
  rw [tensorAlign] at hfitsA hfitsB
  simp only [roundOps, List.flatMap_cons, List.flatMap_nil, accesses_wait, List.nil_append, fmaXs,
    List.append_nil, accesses_fma (arows_lt args tileRow) (acols_lt args kTile)]
  rw [accesses_load (by omega) (arows_lt args tileRow) args.lda.toNat_lt hA.aligned
    h.a.stride_aligned, accesses_loadB (by omega) (acols_lt args kTile)
    args.ldb.toNat_lt hB.aligned h.b.stride_aligned]
  rfl

/-- What is accessed for a tile of `C`. -/
theorem accesses_tileOps (h : Accepted args) {tileRow tileCol : ℕ}
    (hrow : tileRow * 16 < args.m.toNat) (hcol : tileCol * 16 < args.n.toNat) :
    (tileOps args tileRow tileCol).flatMap TensorOp.accesses =
      (tilesAccessed args tileRow tileCol).flatMap (tileAccesses args) := by
  have hC : RowAt _ _ _ (cAddr args tileRow tileCol) := h.c.rowAt hrow hcol
  have hfits := hC.addressable
  rw [tensorAlign] at hfits
  have hstore : (storeOps args tileRow tileCol).flatMap TensorOp.accesses =
      tileAccesses args (.c, tileRow, tileCol, arows args tileRow) := by
    simp only [storeOps, List.flatMap_cons, List.flatMap_nil, accesses_wait, accesses_fence,
      List.append_nil]
    exact accesses_store (by omega) (arows_lt args tileRow) args.ldc.toNat_lt hC.aligned
      h.c.stride_aligned
  rw [tileOps, tilesAccessed, List.flatMap_append, List.flatMap_append, hstore, List.flatMap_assoc,
    List.flatMap_assoc, List.flatMap_singleton]
  refine congrArg (· ++ _) (List.flatMap_congr fun kTile hk => ?_)
  rw [accesses_roundOps h hrow hcol (lt_divCeil_iff.1 (List.mem_range.1 hk))]
  simp only [List.flatMap_cons, List.flatMap_nil, List.append_nil]

/-- What a hart accesses are the tiles for its tiles of `C`. -/
theorem mem_accesses (h : Accepted args) {hart : UInt32} {access : Matrix × ℕ} :
    access ∈ ((tilesOf args hart).flatMap (tileIdxOps args)).flatMap TensorOp.accesses ↔
      ∃ t ∈ tilesOf args hart, ∃ tile ∈ tilesAccessed args (t / nTileN args) (t % nTileN args),
        access ∈ tileAccesses args tile := by
  rw [List.flatMap_assoc, List.mem_flatMap]
  refine exists_congr fun t => and_congr_right fun ht => ?_
  have hlt := tilesOf_lt ht
  rw [tileIdxOps, accesses_tileOps h (tile_row_lt hlt) (tile_col_lt hlt), List.mem_flatMap]

/-- Every tile of every matrix is accessed for some tile of `C`. -/
theorem exists_tilesAccessed (h : Accepted args) {matrix : Matrix} {row col : ℕ}
    (hrow : row * 16 < args.rows matrix) (hcol : col * 16 < args.cols matrix) :
    ∃ t < nTiles args, ∃ count,
      (matrix, row, col, count) ∈ tilesAccessed args (t / nTileN args) (t % nTileN args) := by
  cases matrix with
  | a =>
    obtain ⟨t, ht, htRow, -⟩ := exists_tile hrow h.n_pos
    rw [Nat.mul_div_cancel _ (by decide)] at htRow
    refine ⟨t, ht, arows args row, List.mem_append_left _ (List.mem_flatMap.2
      ⟨col, List.mem_range.2 (lt_divCeil_iff.2 hcol), ?_⟩)⟩
    rw [htRow]
    exact List.mem_cons_self
  | b =>
    obtain ⟨t, ht, -, htCol⟩ := exists_tile h.m_pos hcol
    rw [Nat.mul_div_cancel _ (by decide)] at htCol
    refine ⟨t, ht, acols args row, List.mem_append_left _ (List.mem_flatMap.2
      ⟨row, List.mem_range.2 (lt_divCeil_iff.2 hrow), ?_⟩)⟩
    rw [htCol]
    exact List.mem_cons_of_mem _ List.mem_cons_self
  | c =>
    obtain ⟨t, ht, htRow, htCol⟩ := exists_tile hrow hcol
    rw [Nat.mul_div_cancel _ (by decide)] at htRow htCol
    refine ⟨t, ht, arows args row, List.mem_append_right _ ?_⟩
    rw [htRow, htCol]
    exact List.mem_cons_self

/-- Some hart accesses the first row of each tile. -/
theorem exists_access (h : Accepted args) {matrix : Matrix} {row col : ℕ}
    (hrow : row * 16 < args.rows matrix) (hcol : col * 16 < args.cols matrix) :
    ∃ hart, (matrix, args.tileStart matrix row col % 2 ^ 48) ∈
      ((tilesOf args hart).flatMap (tileIdxOps args)).flatMap TensorOp.accesses := by
  obtain ⟨t, ht, count, htile⟩ := exists_tilesAccessed h hrow hcol
  obtain ⟨hart, -, hmem⟩ := exists_hart h ht
  have hfirst : (matrix, args.tileStart matrix row col % 2 ^ 48) ∈
      tileAccesses args (matrix, row, col, count) :=
    List.mem_map.2 ⟨_, List.mem_map.2 ⟨0, List.mem_range.2 (Nat.succ_pos _), rfl⟩, by simp⟩
  exact ⟨hart, (mem_accesses h).2 ⟨t, hmem, _, htile, hfirst⟩⟩

/-- Only where a tile starts decides whether its rows are in its matrix. -/
theorem Accepted.staysInRows_iff (h : Accepted args) : StaysInRows args ↔ Addressable args := by
  constructor
  · intro hstays matrix row col hrow hcol
    obtain ⟨hart, haccess⟩ := exists_access h hrow hcol
    obtain ⟨ops, hops, hrows⟩ := hstays hart
    rw [entryPoint_eq h] at hops
    obtain rfl := Option.some.inj hops
    exact (hrows _ haccess).within.1
  · refine fun haddressable hart => ⟨_, entryPoint_eq h hart, fun access haccess => ?_⟩
    obtain ⟨t, ht, ⟨matrix, row, col, count⟩, htile, haccess⟩ := (mem_accesses h).1 haccess
    obtain ⟨addr, haddr, rfl⟩ := List.mem_map.1 haccess
    have hlt := tilesOf_lt ht
    obtain ⟨hrow, hcol, hcount⟩ := mem_tilesAccessed (tile_row_lt hlt) (tile_col_lt hlt) htile
    exact (h.operand matrix).rowAt_rowAddrs hrow hcol hcount (haddressable matrix row col hrow hcol)
      haddr

/-- Matrices that end below the limit are addressed in full. -/
theorem Accepted.addressable (h : Accepted args) (hbelow : BelowLimit args) : Addressable args := by
  intro matrix row col hrow hcol
  have hend := ((h.operand matrix).rowAt hrow hcol).within.2
  have hlimit := hbelow matrix
  rw [tensorAlign] at hend
  rw [GemmArgs.tileStart, Nat.mod_eq_of_lt (by omega), Nat.add_assoc]
  exact Nat.le_add_right ..

/-! ## Allocated matrices -/

theorem alloc_exact (s : Sys) (size : ℕ) : Triple (fun t => t = s) (alloc size)
    ⟨fun region t => s.Hands size region ∧ t = s.allocated region, fun _ _ => True,
      fun _ _ => True⟩ := by
  refine (alloc_triple (H := fun _ => True) (R := fun region t => s.Hands size region ∧
    t = s.allocated region) trivial fun t region ht hhands => ?_).conseq (fun _ h => h)
      (fun _ _ h => h) (fun _ _ _ => trivial) fun _ _ => trivial
  subst ht
  exact ⟨hhands, rfl⟩

/-- What a matrix that was allocated is. -/
structure Allocated (rows cols addr stride : ℕ) (s s' : Sys) : Prop where
  rows_pos : 0 < rows
  cols_pos : 0 < cols
  stride_eq : stride = (cols * 4 + tensorAlign - 1) / tensorAlign * tensorAlign
  stride_lt : stride < 2 ^ 32
  aligned : tensorAlign ∣ addr
  fits : addr + rows * stride < 2 ^ 64
  handed : s' = s.allocated ⟨addr, rows * stride⟩

theorem limitUnless_exact {P : Sys → Prop} (p : Prop) [Decidable p] (message : String) :
    Triple P (limitUnless p message) ⟨fun _ s => p ∧ P s, fun _ _ => True, fun _ _ => True⟩ :=
  .ite (fun hp => .pure fun _ hs => ⟨hp, hs⟩) fun _ => .throw fun _ _ => trivial

theorem allocTensorMatrix_exact (rows cols : ℕ) (s : Sys) :
    Triple (fun t => t = s) (allocTensorMatrix rows cols)
      ⟨fun r => Allocated rows cols r.1 r.2 s, fun _ _ => True, fun _ _ => True⟩ := by
  refine .bind (limitUnless_exact _ _) fun _ => .and_pre fun ⟨hrows, hcols⟩ =>
    .bind (limitUnless_exact _ _) fun _ => .and_pre fun hstride =>
      .bind (limitUnless_exact _ _) fun _ => .and_pre fun _ =>
        .bind (alloc_exact s _) fun region => .bind (limitUnless_exact _ _) fun _ =>
          .and_pre fun haligned => .pure fun t ⟨hhands, ht⟩ => ?_
  have hregion : region = ⟨region.addr, region.size⟩ := rfl
  have hwithin := hhands.within
  rw [DeviceRegion.endAddr, hhands.len] at hwithin
  rw [hhands.len] at hregion
  exact ⟨Nat.pos_of_ne_zero hrows, Nat.pos_of_ne_zero hcols, rfl, hstride,
    Nat.dvd_of_mod_eq_zero haligned, hwithin.trans_lt hhands.limit, ht.trans (congrArg _ hregion)⟩

theorem allocated_of_allocTensorMatrix {rows cols addr stride : ℕ} {s s' : Sys}
    (h : allocTensorMatrix rows cols s = (.ok (addr, stride), s')) :
    Allocated rows cols addr stride s s' :=
  (allocTensorMatrix_exact rows cols s).of_ok rfl h

/-- A matrix that was allocated passes the checks. -/
theorem Allocated.operand {rows cols addr stride : ℕ} {s s' : Sys}
    (h : Allocated rows cols addr stride s s') : Operand addr stride rows cols := by
  have hcovers : cols * 4 ≤ stride := by
    rw [h.stride_eq, tensorAlign]
    omega
  refine ⟨h.aligned, h.stride_eq ▸ Nat.dvd_mul_left .., hcovers, ?_⟩
  have hrows : rows = rows - 1 + 1 := by
    have := h.rows_pos
    omega
  have hmul : rows * stride = (rows - 1) * stride + stride := by
    rw [hrows, Nat.succ_mul, Nat.add_sub_cancel]
  have := h.fits
  omega

/-! ## Main result -/

/-- The region in which a matrix is kept. -/
def GemmArgs.region (args : GemmArgs) (matrix : Matrix) : DeviceRegion :=
  ⟨args.base matrix, args.rows matrix * args.stride matrix⟩

/-- All rows that a hart accesses are in the regions of their matrices, and share no byte with
any other region that is live at the same time as that one. -/
def StaysInRegions (args : GemmArgs) : Prop :=
  ∀ hart ops, entryPoint args hart = some ops → ∀ access ∈ ops.flatMap TensorOp.accesses,
    ((args.region access.1).addr ≤ access.2 ∧
      access.2 + tensorAlign ≤ (args.region access.1).endAddr) ∧
    ∀ setup calls i, (i, args.region access.1) ∈
        liveRegions ((Session.init setup).run calls).sys.heap →
      ∀ p ∈ liveRegions ((Session.init setup).run calls).sys.heap, p.1 ≠ i →
        ∀ x, access.2 ≤ x → x < access.2 + tensorAlign → ¬(p.2.addr ≤ x ∧ x < p.2.endAddr)

/-- Inside the regions as inside the rows. -/
theorem Accepted.staysInRegions_iff (h : Accepted args) :
    StaysInRegions args ↔ Addressable args := by
  rw [← h.staysInRows_iff]
  constructor
  · refine fun hstays => h.staysInRows_iff.2 fun matrix row col hrow hcol => ?_
    obtain ⟨hart, haccess⟩ := exists_access h hrow hcol
    exact (hstays hart _ (entryPoint_eq h hart) _ haccess).1.1
  · intro hstays hart ops hops access haccess
    obtain ⟨ops', hops', hrows⟩ := hstays hart
    obtain rfl := Option.some.inj (hops'.symm.trans hops)
    have hwithin := (hrows access haccess).within
    refine ⟨hwithin, fun setup calls i hi p hp hne x hx hx' ⟨hpx, hpx'⟩ => ?_⟩
    have hsound := (Session.run_ordered setup calls).sound
    have hmine : (args.region access.1).addr ≤ x ∧ x < (args.region access.1).endAddr :=
      ⟨hwithin.1.trans hx, hx'.trans_le hwithin.2⟩
    rcases Nat.lt_or_gt_of_ne hne with hlt | hlt
    · exact hsound.apart hi hp hlt x x hmine.1 hmine.2 hpx hpx' rfl
    · exact hsound.apart hp hi hlt x x hpx hpx' hmine.1 hmine.2 rfl

/-- What the kernel does with operands that were allocated as matrices. -/
structure SafeOnAllocated (showF32 : UInt32 → String) (m n k alpha beta nShires : UInt32)
    (available : UInt64) (a lda b ldb c ldc : ℕ) : Prop where
  passesA : Passes showF32 m k (.ofNat a) (.ofNat lda)
  passesB : Passes showF32 k n (.ofNat b) (.ofNat ldb)
  passesC : Passes showF32 m n (.ofNat c) (.ofNat ldc)
  stays : ∀ args, sgemm showF32 m n k alpha (.ofNat a) (.ofNat lda) (.ofNat b) (.ofNat ldb) beta
    (.ofNat c) (.ofNat ldc) nShires available = .ok args →
      (StaysInRegions args ↔ Addressable args) ∧ args.region .a = ⟨a, m.toNat * lda⟩ ∧
      args.region .b = ⟨b, k.toNat * ldb⟩ ∧
      args.region .c = ⟨c, m.toNat * ldc⟩

theorem Allocated.toNat {rows cols : ℕ} {addr stride : ℕ} {s s' : Sys}
    (h : Allocated rows cols addr stride s s') :
    (UInt64.ofNat addr).toNat = addr ∧ (UInt32.ofNat stride).toNat = stride :=
  ⟨UInt64.toNat_ofNat_of_lt' ((Nat.le_add_right ..).trans_lt h.fits),
    UInt32.toNat_ofNat_of_lt' h.stride_lt⟩

/-- What the host accepts stays inside the rows of its matrices just when the tiles of these can
be addressed. Matrices that the host has allocated pass the checks, and the kernel then stays
inside their regions in the same cases. -/
theorem sgemm_safe_iff (showF32 : UInt32 → String) (m n k alpha beta nShires : UInt32)
    (available : UInt64) :
    (∀ a lda b ldb c ldc args, sgemm showF32 m n k alpha a lda b ldb beta c ldc nShires available =
      .ok args → (StaysInRows args ↔ Addressable args)) ∧
    ∀ a lda b ldb c ldc sA sA' sB sB' sC sC',
      allocTensorMatrix m.toNat k.toNat sA = (.ok (a, lda), sA') →
      allocTensorMatrix k.toNat n.toNat sB = (.ok (b, ldb), sB') →
      allocTensorMatrix m.toNat n.toNat sC = (.ok (c, ldc), sC') →
      SafeOnAllocated showF32 m n k alpha beta nShires available a lda b ldb c ldc := by
  refine ⟨fun a lda b ldb c ldc args h => (accepted_of_sgemm h).1.staysInRows_iff, ?_⟩
  intro a lda b ldb c ldc sA sA' sB sB' sC sC' hA hB hC
  have hA := allocated_of_allocTensorMatrix hA
  have hB := allocated_of_allocTensorMatrix hB
  have hC := allocated_of_allocTensorMatrix hC
  obtain ⟨ha, hlda⟩ := hA.toNat
  obtain ⟨hb, hldb⟩ := hB.toNat
  obtain ⟨hc, hldc⟩ := hC.toNat
  refine ⟨passes_iff.2 ?_, passes_iff.2 ?_, passes_iff.2 ?_, fun args h => ?_⟩
  · rw [ha, hlda]
    exact hA.operand
  · rw [hb, hldb]
    exact hB.operand
  · rw [hc, hldc]
    exact hC.operand
  · obtain ⟨haccepted, rfl⟩ := accepted_of_sgemm h
    refine ⟨haccepted.staysInRegions_iff, ?_, ?_, ?_⟩ <;>
      simp only [GemmArgs.region, GemmArgs.base, GemmArgs.rows, GemmArgs.stride, ha, hb, hc, hlda,
        hldb, hldc]

/-- Three matrices, one allocated after the other. -/
def smallMatrices : List Sys :=
  let s := (Session.init smallDram).sys
  let sA := (allocTensorMatrix 17 5 s).2
  let sB := (allocTensorMatrix 5 3 sA).2
  [s, sA, sB, (allocTensorMatrix 17 3 sB).2]

theorem sgemm_safe_iff_smallMatrices :
    SafeOnAllocated (fun _ => "") 17 3 5 0x3F800000 0 1 1 4096 64 5184 64 5504 64 ∧
      StaysInRows ⟨4096, 5184, 5504, 1, 17, 3, 5, 64, 64, 64, 0x3F800000, 0⟩ := by
  have hok : sgemm (fun _ => "") 17 3 5 0x3F800000 4096 64 5184 64 0 5504 64 1 1 =
      .ok ⟨4096, 5184, 5504, 1, 17, 3, 5, 64, 64, 64, 0x3F800000, 0⟩ := rfl
  obtain ⟨hrows, hregions⟩ := sgemm_safe_iff (fun _ => "") 17 3 5 0x3F800000 0 1 1
  refine ⟨hregions 4096 64 5184 64 5504 64 smallMatrices[0] smallMatrices[1] smallMatrices[1]
    smallMatrices[2] smallMatrices[2] smallMatrices[3] ?_ ?_ ?_,
    (hrows 4096 64 5184 64 5504 64 _ hok).2 ((accepted_of_sgemm hok).1.addressable ?_)⟩
  · exact Prod.ext (by decide +kernel) rfl
  · exact Prod.ext (by decide +kernel) rfl
  · exact Prod.ext (by decide +kernel) rfl
  · rintro (_ | _ | _) <;> decide

/-- A matrix of one number that lies at the limit: its row is read from address 0. -/
theorem not_staysInRows_atLimit :
    sgemm (fun _ => "") 1 1 1 0x3F800000 0x1000000000000 64 0 64 0 64 64 1 1 =
        .ok ⟨0x1000000000000, 0, 64, 1, 1, 1, 1, 64, 64, 64, 0x3F800000, 0⟩ ∧
      ¬StaysInRows ⟨0x1000000000000, 0, 64, 1, 1, 1, 1, 64, 64, 64, 0x3F800000, 0⟩ := by
  have hok : sgemm (fun _ => "") 1 1 1 0x3F800000 0x1000000000000 64 0 64 0 64 64 1 1 =
      .ok ⟨0x1000000000000, 0, 64, 1, 1, 1, 1, 64, 64, 64, 0x3F800000, 0⟩ := rfl
  refine ⟨hok, fun hstays => ?_⟩
  have hlow := (accepted_of_sgemm hok).1.staysInRows_iff.1 hstays .a 0 0 Nat.one_pos Nat.one_pos
  exact absurd (Nat.mod_lt _ (Nat.two_pow_pos 48)) (Nat.not_lt.2 hlow)

end EtSoc.Gemm

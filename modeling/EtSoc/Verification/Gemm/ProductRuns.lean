import EtSoc.Verification.Gemm.Product

/-! # Runs of the product

Each step of a Minion keeps its place in its tiles, and none disturbs another. -/

namespace EtSoc.Gemm

open InFlight SharedMemory

variable {R : Type*} [AddCommMonoid R] [Mul R]
variable {args : GemmArgs} {m0 mem mem' : Memory R} {tiles : List ℕ} {c : Core R}

/-! ## Memory that other Minions write -/

theorem RowDone.stable {tileRow tileCol i : ℕ} (h : Separate args)
    (hrow : tileRow * 16 + i < args.m.toNat) (hcol : tileCol * 16 < args.n.toNat)
    (hallows : Allows args m0 mem mem') (hdone : RowDone args m0 mem tileRow tileCol i) :
    RowDone args m0 mem' tileRow tileCol i :=
  fun x hx => hallows.2 _ hrow _ (h.accepted.c.col_lt hcol hx) (hdone x hx)

theorem TileDone.stable {t : ℕ} (h : Separate args) (ht : t < nTiles args)
    (hallows : Allows args m0 mem mem') (hdone : TileDone args m0 mem t) :
    TileDone args m0 mem' t :=
  fun i hi => (hdone i hi).stable h (row_lt (tile_row_lt ht) hi) (tile_col_lt ht) hallows

theorem Phase.stable (h : Separate args) (htiles : ∀ t ∈ tiles, t < nTiles args)
    (hallows : Allows args m0 mem mem') (hphase : Phase args m0 mem tiles c) :
    Phase args m0 mem' tiles c := by
  cases hphase with
  | finished unit => exact .finished unit
  | round hk hacc => exact .round hk hacc
  | loadingA hk hacc hA => exact .loadingA hk hacc hA
  | loadedA hk hacc hA => exact .loadedA hk hacc hA
  | loadingB hk hacc hA hB => exact .loadingB hk hacc hA hB
  | multiplying hk hacc hA hB => exact .multiplying hk hacc hA hB
  | multiplied hk hacc => exact .multiplied hk hacc
  | storing hacc hC =>
    have ht := htiles _ List.mem_cons_self
    exact .storing hacc (hC.mono fun i hi hdone =>
      hdone.stable h (row_lt (tile_row_lt ht) hi) (tile_col_lt ht) hallows)
  | stored hdone => exact .stored (hdone.stable h (htiles _ List.mem_cons_self) hallows)

/-! ## A Minion issues an instruction -/

theorem lt_nTileK {kTile : ℕ} : kTile < nTileK args ↔ kTile * 16 < args.k.toNat :=
  lt_divCeil_iff

/-- It stays at its tile, or its tile is done and it goes on to the next. -/
theorem Phase.issue (h : Separate args) (htiles : ∀ t ∈ tiles, t < nTiles args)
    (hphase : Phase args m0 mem tiles c) :
    Phase args m0 mem tiles c.issue ∨
      ∃ t rest, tiles = t :: rest ∧ TileDone args m0 mem t ∧ Phase args m0 mem rest c.issue := by
  cases hphase with
  | finished unit => exact .inl (.finished unit)
  | round hk hacc =>
    have ht := htiles _ List.mem_cons_self
    left
    rcases Nat.lt_or_eq_of_le hk with hlt | rfl
    · rw [after_succ _ _ _ hlt, loadAOp, (h.asks_load (tile_row_lt ht) (lt_nTileK.1 hlt)).issue]
      exact .loadingA hlt hacc .issued
    · rw [after_nTileK, storeOps, List.cons_append,
        (h.asks_store (tile_row_lt ht) (tile_col_lt ht)).issue]
      exact .storing hacc .issued
  | loadingA hk hacc hA =>
    left
    rw [issue_wait]
    split
    next hwait =>
      obtain rfl := hA.eq_nil (fun _ _ => rfl) hwait
      exact .loadedA hk hacc fun i hi => hA.all_done hi
    next => exact .loadingA hk hacc hA
  | loadedA hk hacc hA =>
    have ht := htiles _ List.mem_cons_self
    left
    rw [loadBOp, (h.asks_loadB (tile_col_lt ht) (lt_nTileK.1 hk)).issue]
    exact .loadingB hk hacc hA .issued
  | loadingB hk hacc hA hB =>
    left
    rw [roundRest, (asks_fma args _ _).issue]
    exact .multiplying hk hacc hA hB
  | multiplying hk hacc hA hB =>
    left
    rw [issue_wait, if_neg]
    · exact .multiplying hk hacc hA hB
    · exact fun hwait => hwait _ (List.mem_append_right _ List.mem_cons_self) rfl
  | multiplied hk hacc =>
    left
    rw [issue_wait, if_pos (by simp)]
    exact .round hk hacc
  | storing hacc hC =>
    left
    rw [issue_wait]
    split
    next hwait =>
      obtain rfl := hC.eq_nil (fun _ _ => rfl) hwait
      exact .stored fun i hi => hC.all_done hi
    next => exact .storing hacc hC
  | stored hdone =>
    right
    rw [issue_fence]
    exact ⟨_, _, rfl, hdone, .start args m0 mem _ _⟩

/-! ## A co-processor does an operation -/

variable {pending : List Micro} {rest : List TensorOp} {unit : TensorUnit R} {i : ℕ}
  {micro : Micro}

theorem perform_of_none (hnone : pending[i]? = none) :
    Core.perform i mem ⟨rest, pending, unit⟩ = (mem, ⟨rest, pending, unit⟩) := by
  simp only [Core.perform, hnone]

theorem perform_of_ready (hsome : pending[i]? = some micro) (hready : micro.Ready pending) :
    Core.perform i mem ⟨rest, pending, unit⟩ = ((micro.perform mem unit).1,
      ⟨rest, pending.eraseIdx i, (micro.perform mem unit).2⟩) := by
  simp only [Core.perform, hsome, if_pos hready]

theorem perform_of_not_ready (hsome : pending[i]? = some micro) (hready : ¬micro.Ready pending) :
    Core.perform i mem ⟨rest, pending, unit⟩ = (mem, ⟨rest, pending, unit⟩) := by
  simp only [Core.perform, hsome, if_neg hready]

theorem aRow_injective (args : GemmArgs) (tileRow kTile : ℕ) :
    Function.Injective (aRow args tileRow kTile) :=
  fun _ _ heq => (Micro.loadRow.inj heq).2.2

theorem bRow_injective (args : GemmArgs) (tileCol kTile : ℕ) :
    Function.Injective (bRow args tileCol kTile) :=
  fun _ _ heq => (Micro.loadBRow.inj heq).2.2

theorem cRow_injective (args : GemmArgs) (tileRow tileCol : ℕ) :
    Function.Injective (cRow args tileRow tileCol) :=
  fun _ _ heq => (Micro.storeRow.inj heq).2

variable (unit) in
/-- A line is loaded from `A` as it was at the launch, and the other lines stay. -/
theorem Separate.loadA {tileRow kTile : ℕ} (h : Separate args) (hmem : Unwritten args m0 mem)
    (hrow : tileRow * 16 + i < args.m.toNat) (hk : kTile * 16 < args.k.toNat) :
    LineLoaded args m0 tileRow kTile ((aRow args tileRow kTile i).perform mem unit).2 i ∧
      ∀ j, j ≠ i → LineLoaded args m0 tileRow kTile unit j →
        LineLoaded args m0 tileRow kTile ((aRow args tileRow kTile i).perform mem unit).2 j := by
  refine ⟨fun x hx => ?_, fun j hj hloaded x hx => ?_⟩
  · simp only [aRow, Micro.perform, Function.update_self]
    rw [← h.read_a hmem hrow (h.accepted.a.col_lt hk hx), word, word, ← Nat.add_assoc]
  · simp only [aRow, Micro.perform, Function.update_of_ne hj]
    exact hloaded x hx

variable (unit) in
theorem Separate.loadB {tileCol kTile : ℕ} (h : Separate args) (hmem : Unwritten args m0 mem)
    (hcol : tileCol * 16 < args.n.toNat) (hk : kTile * 16 + i < args.k.toNat) :
    RowLoaded args m0 tileCol kTile ((bRow args tileCol kTile i).perform mem unit).2 i ∧
      ∀ j, j ≠ i → RowLoaded args m0 tileCol kTile unit j →
        RowLoaded args m0 tileCol kTile ((bRow args tileCol kTile i).perform mem unit).2 j := by
  refine ⟨fun x hx => ?_, fun j hj hloaded x hx => ?_⟩
  · simp only [bRow, Micro.perform, Function.update_self]
    rw [← h.read_b hmem hk (h.accepted.b.col_lt hcol hx), word, word, ← Nat.add_assoc]
  · simp only [bRow, Micro.perform, Function.update_of_ne hj]
    exact hloaded x hx

theorem inner_lt {kTile l : ℕ} (hk : kTile * 16 < args.k.toNat) (hl : l < acols args kTile + 1) :
    kTile * 16 + l < args.k.toNat := by
  rw [acols] at hl
  omega

/-- What is pending when rows of `B` are loaded for a product that is not issued yet. -/
theorem isLoadB_of_mem {n : ℕ} {Done : ℕ → Prop} {tileCol kTile : ℕ}
    (hB : Batch (bRow args tileCol kTile) n pending Done) (hmicro : micro ∈ pending) :
    micro.isLoadB := by
  obtain ⟨i, -, rfl⟩ := hB.only _ hmicro
  rfl

/-- The co-processor keeps the Minion's place, and writes to memory only what settles it. -/
theorem Phase.perform (h : Separate args) (htiles : ∀ t ∈ tiles, t < nTiles args)
    (hmem : Unwritten args m0 mem) (hphase : Phase args m0 mem tiles c) (i : ℕ) :
    Phase args m0 (c.perform i mem).1 tiles (c.perform i mem).2 ∧
      Allows args m0 mem (c.perform i mem).1 := by
  cases hphase with
  | finished unit =>
    rw [perform_of_none rfl]
    exact ⟨.finished unit, .refl args m0 mem⟩
  | round hk hacc =>
    rw [perform_of_none rfl]
    exact ⟨.round hk hacc, .refl args m0 mem⟩
  | @loadingA t tiles kTile pending unit hk hacc hA =>
    have ht := htiles _ List.mem_cons_self
    cases hsome : pending[i]? with
    | none =>
      rw [perform_of_none hsome]
      exact ⟨.loadingA hk hacc hA, .refl args m0 mem⟩
    | some micro =>
      obtain ⟨j, hj, rfl⟩ := hA.of_getElem? hsome
      obtain ⟨hself, hothers⟩ := h.loadA unit hmem (row_lt (tile_row_lt ht) hj)
        (lt_nTileK.1 hk)
      rw [perform_of_ready hsome trivial]
      exact ⟨.loadingA hk hacc (hA.perform (aRow_injective _ _ _) hsome hself
        fun j' _ hne => hothers j' hne), .refl args m0 mem⟩
  | loadedA hk hacc hA =>
    rw [perform_of_none rfl]
    exact ⟨.loadedA hk hacc hA, .refl args m0 mem⟩
  | @loadingB t tiles kTile pending unit hk hacc hA hB =>
    have ht := htiles _ List.mem_cons_self
    cases hsome : pending[i]? with
    | none =>
      rw [perform_of_none hsome]
      exact ⟨.loadingB hk hacc hA hB, .refl args m0 mem⟩
    | some micro =>
      obtain ⟨l, hl, rfl⟩ := hB.of_getElem? hsome
      obtain ⟨hself, hothers⟩ := h.loadB unit hmem (tile_col_lt ht)
        (inner_lt (lt_nTileK.1 hk) hl)
      rw [perform_of_ready hsome trivial]
      exact ⟨.loadingB hk hacc hA (hB.perform (bRow_injective _ _ _) hsome hself
        fun l' _ hne => hothers l' hne), .refl args m0 mem⟩
  | @multiplying t tiles kTile pending unit hk hacc hA hB =>
    have ht := htiles _ List.mem_cons_self
    rcases Nat.lt_trichotomy i pending.length with hlt | rfl | hgt
    · -- A row of `B` is loaded, and the product waits on.
      have hsome : pending[i]? = some pending[i] := List.getElem?_eq_getElem hlt
      have hsome' : (pending ++ [fmaOf args (t / nTileN args) kTile])[i]? = some pending[i] := by
        rw [List.getElem?_append_left hlt, hsome]
      obtain ⟨l, hl, hmicro⟩ := hB.of_getElem? hsome
      obtain ⟨hself, hothers⟩ := h.loadB unit hmem (tile_col_lt ht)
        (inner_lt (lt_nTileK.1 hk) hl)
      rw [hmicro] at hsome hsome'
      rw [perform_of_ready hsome' trivial, List.eraseIdx_append_of_lt_length hlt]
      exact ⟨.multiplying hk hacc hA (hB.perform (bRow_injective _ _ _) hsome hself
        fun l' _ hne => hothers l' hne), .refl args m0 mem⟩
    · -- The product is done once all of `B` is loaded.
      have hsome : (pending ++ [fmaOf args (t / nTileN args) kTile])[pending.length]? =
          some (fmaOf args (t / nTileN args) kTile) := by simp
      by_cases hready : (fmaOf args (t / nTileN args) kTile).Ready
          (pending ++ [fmaOf args (t / nTileN args) kTile])
      · have hnil : pending = [] := List.eq_nil_iff_forall_not_mem.2 fun micro hmicro =>
          hready rfl micro (List.mem_append_left _ hmicro) (isLoadB_of_mem hB hmicro)
        subst hnil
        rw [perform_of_ready hsome hready]
        exact ⟨.multiplied hk (.fma (lt_nTileK.1 hk) hA (fun l hl => hB.all_done hl) hacc mem),
          .refl args m0 mem⟩
      · rw [perform_of_not_ready hsome hready]
        exact ⟨.multiplying hk hacc hA hB, .refl args m0 mem⟩
    · have hnone : (pending ++ [fmaOf args (t / nTileN args) kTile])[i]? = none := by
        rw [List.getElem?_eq_none]
        rw [List.length_append]
        exact hgt
      rw [perform_of_none hnone]
      exact ⟨.multiplying hk hacc hA hB, .refl args m0 mem⟩
  | multiplied hk hacc =>
    rw [perform_of_none rfl]
    exact ⟨.multiplied hk hacc, .refl args m0 mem⟩
  | @storing t tiles pending unit hacc hC =>
    have ht := htiles _ List.mem_cons_self
    have hpos : 0 < nTileK args := lt_nTileK.2 (by
      rw [Nat.zero_mul]
      exact h.accepted.k_pos)
    cases hsome : pending[i]? with
    | none =>
      rw [perform_of_none hsome]
      exact ⟨.storing hacc hC, .refl args m0 mem⟩
    | some micro =>
      obtain ⟨j, hj, rfl⟩ := hC.of_getElem? hsome
      obtain ⟨hallows, hself⟩ := h.store mem (row_lt (tile_row_lt ht) hj) (tile_col_lt ht)
        fun x hx => (hacc hpos j (Nat.le_of_lt_succ hj) x hx).trans (partialSum_nTileK args m0 _ _)
      rw [perform_of_ready hsome trivial]
      exact ⟨.storing hacc (hC.perform (cRow_injective _ _ _) hsome hself fun j' hj' _ hdone =>
        hdone.stable h (row_lt (tile_row_lt ht) hj') (tile_col_lt ht) hallows), hallows⟩
  | stored hdone =>
    rw [perform_of_none rfl]
    exact ⟨.stored hdone, .refl args m0 mem⟩

/-! ## Runs -/

/-- A Minion has settled the tiles that it is through with, and none has written outside of the
result. -/
def Progress (args : GemmArgs) (m0 : Memory R) (hart : UInt32) (mem : Memory R) (c : Core R) :
    Prop :=
  Unwritten args m0 mem ∧ ∃ done todo, tilesOf args hart = done ++ todo ∧
    (∀ t ∈ done, TileDone args m0 mem t) ∧ Phase args m0 mem todo c

theorem tilesOf_append {hart : UInt32} {done todo : List ℕ}
    (hsplit : tilesOf args hart = done ++ todo) :
    (∀ t ∈ done, t < nTiles args) ∧ ∀ t ∈ todo, t < nTiles args :=
  ⟨fun _ ht => tilesOf_lt (hsplit ▸ List.mem_append_left _ ht),
    fun _ ht => tilesOf_lt (hsplit ▸ List.mem_append_right _ ht)⟩

theorem Progress.stable {hart : UInt32} (h : Separate args) (hallows : Allows args m0 mem mem')
    (hprogress : Progress args m0 hart mem c) : Progress args m0 hart mem' c := by
  obtain ⟨hmem, done, todo, hsplit, hdone, hphase⟩ := hprogress
  obtain ⟨hdoneLt, htodoLt⟩ := tilesOf_append hsplit
  exact ⟨hallows.1 hmem, done, todo, hsplit,
    fun t ht => (hdone t ht).stable h (hdoneLt t ht) hallows, hphase.stable h htodoLt hallows⟩

theorem Progress.act {hart : UInt32} (h : Separate args) (hprogress : Progress args m0 hart mem c)
    (act : Act) : Progress args m0 hart (c.act act mem).1 (c.act act mem).2 ∧
      Allows args m0 mem (c.act act mem).1 := by
  have hprogress' := hprogress
  obtain ⟨hmem, done, todo, hsplit, hdone, hphase⟩ := hprogress
  obtain ⟨hdoneLt, htodoLt⟩ := tilesOf_append hsplit
  cases act with
  | issue =>
    refine ⟨?_, .refl args m0 mem⟩
    rcases hphase.issue h htodoLt with hphase | ⟨t, rest, rfl, htile, hphase⟩
    · exact ⟨hmem, done, todo, hsplit, hdone, hphase⟩
    · refine ⟨hmem, done ++ [t], rest, by rw [hsplit, List.append_assoc]; rfl, fun t' ht' => ?_,
        hphase⟩
      rcases List.mem_append.1 ht' with ht' | ht'
      · exact hdone t' ht'
      · rwa [List.mem_singleton.1 ht']
  | perform i =>
    obtain ⟨hphase, hallows⟩ := hphase.perform h htodoLt hmem i
    exact ⟨⟨hallows.1 hmem, done, todo, hsplit,
      fun t ht => (hdone t ht).stable h (hdoneLt t ht) hallows, hphase⟩, hallows⟩

theorem Separate.respects (h : Separate args) :
    Respects (Core.act (R := R)) (Progress args m0) (Allows args m0) where
  own _ act _ _ hprogress := (hprogress.act h act).1
  allowed _ act _ _ hprogress := (hprogress.act h act).2
  stable _ _ _ _ hallows hprogress := hprogress.stable h hallows

theorem Separate.launch (h : Separate args) (m0 : Memory R) (units : UInt32 → TensorUnit R)
    (hart : UInt32) :
    Progress args m0 hart (args.launch m0 units).mem ((args.launch m0 units).core hart) := by
  refine ⟨fun _ _ => rfl, [], tilesOf args hart, rfl, by simp, ?_⟩
  simp only [GemmArgs.launch, entryPoint_eq h.accepted, Option.getD_some]
  exact .start args m0 m0 _ _

/-- A Minion that has returned has settled all of its tiles. -/
theorem Progress.all_done {hart : UInt32} (hprogress : Progress args m0 hart mem c)
    (hreturned : c.rest = []) : ∀ t ∈ tilesOf args hart, TileDone args m0 mem t := by
  obtain ⟨-, done, todo, hsplit, hdone, hphase⟩ := hprogress
  cases hphase with
  | finished unit =>
    rw [hsplit, List.append_nil]
    exact hdone
  | round hk _ =>
    rcases Nat.lt_or_eq_of_le hk with hlt | rfl
    · rw [after_succ _ _ _ hlt] at hreturned
      cases hreturned
    · rw [after_nTileK] at hreturned
      cases hreturned
  | _ => cases hreturned

/-! ## Every tile is stored once -/

theorem nodup_tileLoop (shireEnd index : ℕ) : (tileLoop shireEnd index).Nodup := by
  induction index using tileLoop.induct shireEnd with
  | case1 index hlt ih =>
    rw [tileLoop, if_pos hlt, List.nodup_cons]
    refine ⟨fun hmem => ?_, ih⟩
    obtain ⟨j, hj, -⟩ := mem_tileLoop.1 hmem
    rw [minionsPerShire] at hj
    omega
  | case2 index hlt =>
    rw [tileLoop, if_neg hlt]
    exact List.nodup_nil

theorem nodup_tilesOf (args : GemmArgs) (hart : UInt32) : (tilesOf args hart).Nodup := by
  unfold tilesOf
  split
  · exact (nodup_tileLoop _ _).map fun _ _ heq => Nat.add_left_cancel heq
  · exact List.nodup_nil

/-- A tile tells which hart computes it. -/
theorem toNat_of_mem_tilesOf {hart : UInt32} {t : ℕ} (ht : t ∈ tilesOf args hart) :
    hart.toNat = t / shireSize args * 64 + t % shireSize args % 32 * 2 := by
  unfold tilesOf at ht
  split at ht
  next heven =>
    obtain ⟨i, hi, rfl⟩ := List.mem_map.1 ht
    obtain ⟨j, hj, hlt⟩ := mem_tileLoop.1 hi
    rw [minionsPerShire] at hj
    have hsize : i < shireSize args := by omega
    have hpos : 0 < shireSize args := by omega
    rw [Nat.add_comm _ i, Nat.add_mul_div_right _ _ hpos, Nat.div_eq_of_lt hsize,
      Nat.add_mul_mod_self_right, Nat.mod_eq_of_lt hsize]
    omega
  next => simp at ht

theorem cAddr_inj {t t' : ℕ} (h : Accepted args) (ht : t < nTiles args) (ht' : t' < nTiles args)
    (heq : cAddr args (t / nTileN args) (t % nTileN args) =
      cAddr args (t' / nTileN args) (t' % nTileN args)) : t = t' := by
  have hcovers := h.c.covers
  have hcol := tile_col_lt ht
  have hcol' := tile_col_lt ht'
  have hpos : 0 < args.ldc.toNat := by omega
  have hdiv : ∀ row col, col * 16 < args.n.toNat →
      (row * 16 * args.ldc.toNat + col * 16 * 4) / args.ldc.toNat = row * 16 := by
    intro row col hlt
    rw [Nat.add_comm, Nat.add_mul_div_right _ _ hpos, Nat.div_eq_of_lt (by omega), Nat.zero_add]
  rw [cAddr, cAddr, Nat.add_assoc, Nat.add_assoc, Nat.add_left_cancel_iff] at heq
  have hrow : t / nTileN args * 16 = t' / nTileN args * 16 := by
    rw [← hdiv _ _ hcol, heq, hdiv _ _ hcol']
  rw [hrow] at heq
  have hmod : t % nTileN args = t' % nTileN args := by omega
  rw [← Nat.div_add_mod t (nTileN args), ← Nat.div_add_mod t' (nTileN args), hmod,
    Nat.eq_of_mul_eq_mul_right (by decide) hrow]

theorem count_roundOps {addr rows stride : ℕ} (tileRow tileCol kTile : ℕ) :
    (roundOps args tileRow tileCol kTile).count (.store addr rows stride) = 0 := by
  rw [roundOps, List.count_eq_zero]
  simp

theorem count_tileIdxOps (h : Accepted args) {t t' : ℕ} (ht : t < nTiles args)
    (ht' : t' < nTiles args) :
    (tileIdxOps args t').count (storeOp args t) = if t' = t then 1 else 0 := by
  have hrounds : ((List.range (nTileK args)).flatMap
      (roundOps args (t' / nTileN args) (t' % nTileN args))).count (storeOp args t) = 0 := by
    rw [List.count_flatMap, List.sum_eq_zero]
    intro x hx
    obtain ⟨kTile, -, rfl⟩ := List.mem_map.1 hx
    exact count_roundOps _ _ kTile
  rw [tileIdxOps, tileOps, List.count_append, hrounds, Nat.zero_add, storeOps]
  by_cases heq : t' = t
  · subst heq
    rw [if_pos rfl, storeOp]
    simp
  · have hne : cAddr args (t' / nTileN args) (t' % nTileN args) ≠
        cAddr args (t / nTileN args) (t % nTileN args) := fun h' => heq (cAddr_inj h ht' ht h')
    rw [if_neg heq, List.count_eq_zero]
    simp [storeOp, hne.symm]

theorem count_flatMap_tileIdxOps (h : Accepted args) {t : ℕ} (ht : t < nTiles args)
    (htiles : ∀ t' ∈ tiles, t' < nTiles args) :
    (tiles.flatMap (tileIdxOps args)).count (storeOp args t) = tiles.count t := by
  induction tiles with
  | nil => rfl
  | cons t' tiles ih =>
    have htail := ih fun t'' ht'' => htiles t'' (List.mem_cons_of_mem _ ht'')
    rw [List.flatMap_cons, List.count_append, htail,
      count_tileIdxOps h ht (htiles t' List.mem_cons_self), List.count_cons, Nat.add_comm]
    simp only [beq_iff_eq]

theorem stored_once (h : Accepted args) {t : ℕ} (ht : t < nTiles args) :
    ∃ hart : UInt32, hart.toNat < 64 * args.nShires.toNat ∧
      ((entryPoint args hart).getD []).count (storeOp args t) = 1 ∧
      ∀ other : UInt32, other ≠ hart →
        ((entryPoint args other).getD []).count (storeOp args t) = 0 := by
  have hcount : ∀ hart, ((entryPoint args hart).getD []).count (storeOp args t) =
      (tilesOf args hart).count t := fun hart => by
    rw [entryPoint_eq h, Option.getD_some, count_flatMap_tileIdxOps h ht fun _ => tilesOf_lt]
  obtain ⟨hart, hlt, hmem⟩ := exists_hart h ht
  refine ⟨hart, hlt, ?_, fun other hne => ?_⟩
  · rw [hcount, List.count_eq_one_of_mem (nodup_tilesOf args hart) hmem]
  · rw [hcount, List.count_eq_zero]
    intro hother
    exact hne (UInt32.toNat_inj.1 ((toNat_of_mem_tilesOf hother).trans
      (toNat_of_mem_tilesOf hmem).symm))

/-- Of all harts, one issues the store of a tile, and it does so once. -/
theorem sgemm_stores_once (showF32 : UInt32 → String)
    (m n k alpha lda ldb beta ldc nShires : UInt32) (a b c available : UInt64) (args : GemmArgs)
    (haccepted : sgemm showF32 m n k alpha a lda b ldb beta c ldc nShires available = .ok args)
    (tileRow tileCol : ℕ) (hrow : tileRow * 16 < m.toNat) (hcol : tileCol * 16 < n.toNat) :
    ∃ hart : UInt32, hart.toNat < 64 * nShires.toNat ∧
      ((entryPoint args hart).getD []).count
        (.store (cAddr args tileRow tileCol) (arows args tileRow) ldc.toNat) = 1 ∧
      ∀ other : UInt32, other ≠ hart → ((entryPoint args other).getD []).count
        (.store (cAddr args tileRow tileCol) (arows args tileRow) ldc.toNat) = 0 := by
  obtain ⟨haccepted, hargs⟩ := accepted_of_sgemm haccepted
  have hshires : nShires.toUInt64.toNat = nShires.toNat := UInt32.toNat_toUInt64 nShires
  have hm : args.m = m := by rw [hargs]
  have hn : args.n = n := by rw [hargs]
  rw [← hm] at hrow
  rw [← hn] at hcol
  obtain ⟨t, ht, hrowOf, hcolOf⟩ := exists_tile hrow hcol
  rw [Nat.mul_div_cancel _ (by decide)] at hrowOf hcolOf
  have hstored := stored_once haccepted ht
  rw [storeOp, hrowOf, hcolOf] at hstored
  obtain rfl := hargs
  rwa [hshires] at hstored

theorem sgemm_stores_once_last :
    ∃ hart : UInt32, hart.toNat < 64 * (2 : UInt32).toNat ∧
      ((entryPoint ⟨0, 8192, 16384, 2, 40, 17, 1, 64, 128, 128, 0x3F800000, 0⟩ hart).getD []).count
        (.store (cAddr ⟨0, 8192, 16384, 2, 40, 17, 1, 64, 128, 128, 0x3F800000, 0⟩ 2 1)
          (arows ⟨0, 8192, 16384, 2, 40, 17, 1, 64, 128, 128, 0x3F800000, 0⟩ 2)
          (128 : UInt32).toNat) = 1 ∧
      ∀ other : UInt32, other ≠ hart →
        ((entryPoint ⟨0, 8192, 16384, 2, 40, 17, 1, 64, 128, 128, 0x3F800000, 0⟩
          other).getD []).count
          (.store (cAddr ⟨0, 8192, 16384, 2, 40, 17, 1, 64, 128, 128, 0x3F800000, 0⟩ 2 1)
            (arows ⟨0, 8192, 16384, 2, 40, 17, 1, 64, 128, 128, 0x3F800000, 0⟩ 2)
            (128 : UInt32).toNat) = 0 :=
  sgemm_stores_once (fun _ => "") 40 17 1 0x3F800000 64 128 0 128 2 0 8192 16384 3 _ rfl 2 1
    (by decide) (by decide)

/-! ## The result -/

theorem Separate.settled (h : Separate args) (units : UInt32 → TensorUnit R)
    (moves : List (UInt32 × Act))
    (hreturned : ∀ hart : UInt32, hart.toNat < 64 * args.nShires.toNat →
      ((run Core.act moves (args.launch m0 units)).core hart).rest = []) {i j : ℕ}
    (hi : i < args.m.toNat) (hj : j < args.n.toNat) :
    Settled args m0 (run Core.act moves (args.launch m0 units)).mem i j := by
  obtain ⟨t, ht, hrow, hcol⟩ := exists_tile hi hj
  obtain ⟨hart, hhart, htiles⟩ := exists_hart h.accepted ht
  have hprogress := h.respects.run moves (h.launch m0 units) hart
  have hdone := hprogress.all_done (hreturned hart hhart) t htiles
  rw [TileDone, hrow, hcol] at hdone
  have hsettled := hdone (i % 16) (by rw [arows]; omega) (j % 16) (Nat.mod_lt _ (by decide))
  rwa [Nat.mul_comm, Nat.div_add_mod, Nat.mul_comm, Nat.div_add_mod] at hsettled

/-- Once all harts have returned, `C` is the product of `A` and `B` as they were at the launch,
whatever `C`, the padding and the co-processors had in them before, and in whatever order the
Minions and their co-processors have worked. -/
theorem sgemm_product (showF32 : UInt32 → String)
    (m n k alpha lda ldb beta ldc nShires : UInt32) (a b c available : UInt64) (args : GemmArgs)
    (haccepted : sgemm showF32 m n k alpha a lda b ldb beta c ldc nShires available = .ok args)
    (hlayout : Layout args) (m0 : Memory R) (units : UInt32 → TensorUnit R)
    (moves : List (UInt32 × Act))
    (hreturned : ∀ hart : UInt32, hart.toNat < 64 * nShires.toNat →
      ((run Core.act moves (args.launch m0 units)).core hart).rest = []) :
    ∀ i < m.toNat, ∀ j < n.toNat,
      (run Core.act moves (args.launch m0 units)).mem (word c.toNat ldc.toNat i j) =
        ∑ l ∈ Finset.range k.toNat,
          m0 (word a.toNat lda.toNat i l) * m0 (word b.toNat ldb.toNat l j) := by
  obtain ⟨haccepted, rfl⟩ := accepted_of_sgemm haccepted
  have hshires : nShires.toUInt64.toNat = nShires.toNat := UInt32.toNat_toUInt64 nShires
  rw [← hshires] at hreturned
  intro i hi j hj
  exact Separate.settled ⟨hlayout, haccepted⟩ units moves hreturned hi hj

/-- A product with two rounds, of which the second is partial. -/
def twoRounds : GemmArgs := ⟨0, 4096, 8192, 1, 2, 1, 17, 128, 64, 64, 0x3F800000, 0⟩

/-- Co-processors that are not clear. -/
def cluttered : TensorUnit ℕ := ⟨fun _ _ => 5, fun _ _ => 6, fun _ _ => 7, 0⟩

def lastFirst : List (UInt32 × Act) :=
  (List.replicate 80 [(0, .issue), (0, .perform 1), (0, .perform 0)]).flatten

theorem twoRounds_returned : ∀ hart < 64, ((run Core.act lastFirst
    (twoRounds.launch (fun w => w + 1) fun _ => cluttered)).core (.ofNat hart)).rest = [] := by
  decide +kernel

theorem sgemm_product_twoRounds :
    (run Core.act lastFirst (twoRounds.launch (fun w => w + 1) fun _ => cluttered)).mem
      (word (8192 : UInt64).toNat (64 : UInt32).toNat 1 0) =
        ∑ l ∈ Finset.range (17 : UInt32).toNat,
          (word (0 : UInt64).toNat (128 : UInt32).toNat 1 l + 1) *
            (word (4096 : UInt64).toNat (64 : UInt32).toNat l 0 + 1) :=
  sgemm_product (fun _ => "") 2 1 17 0x3F800000 128 64 0 64 1 0 4096 8192 1 twoRounds rfl
    ⟨by decide, by decide, by decide, by decide, by decide⟩ (fun w => w + 1) (fun _ => cluttered)
    lastFirst
    (fun hart hlt => @UInt32.ofNat_toNat hart ▸ twoRounds_returned hart.toNat hlt)
    1 (by decide) 0 (by decide)

end EtSoc.Gemm

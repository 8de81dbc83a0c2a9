import EtSoc.Verification.Gemm.ProductRuns
import Mathlib.Data.Nat.Pairing

/-! # Termination

No Minion waits for ever: each step takes it on, and as long as it has not returned there is one. -/

namespace EtSoc.Gemm

open SharedMemory

variable {R : Type*}

/-- An instruction counts for itself and for each operation that it asks for. -/
def TensorOp.work (op : TensorOp) : ℕ :=
  1 + match op.instr with
    | none => 0
    | some instr => (instrMicros instr).length

/-- What a Minion and its co-processor have left to do. -/
def Core.work (c : Core R) : ℕ := (c.rest.map TensorOp.work).sum + c.pending.length

theorem Core.issue_work (c : Core R) : c.issue = c ∨ c.issue.work < c.work := by
  obtain ⟨rest, pending, unit⟩ := c
  cases rest with
  | nil => exact .inl rfl
  | cons op rest =>
    unfold Core.issue
    dsimp only
    split
    next hinstr =>
      right
      simp only [Core.work, List.map_cons, List.sum_cons, TensorOp.work, hinstr]
      omega
    next event hinstr =>
      split
      · right
        simp only [Core.work, List.map_cons, List.sum_cons, TensorOp.work]
        omega
      · exact .inl rfl
    next instr _ hinstr =>
      right
      simp only [Core.work, List.map_cons, List.sum_cons, TensorOp.work, hinstr,
        List.length_append]
      omega

/-- Of the operations that are pending, one can be done. -/
theorem exists_ready {pending : List Micro} (hpending : pending ≠ []) :
    ∃ (i : ℕ) (micro : Micro), pending[i]? = some micro ∧ micro.Ready pending := by
  by_cases hload : ∃ micro ∈ pending, micro.isLoadB
  · obtain ⟨micro, hmem, hisLoad⟩ := hload
    obtain ⟨i, hi⟩ := List.mem_iff_getElem?.1 hmem
    cases micro with
    | loadBRow id addr row => exact ⟨i, _, hi, trivial⟩
    | loadRow id addr line => cases hisLoad
    | fma operands => cases hisLoad
    | storeRow addr row => cases hisLoad
  · obtain ⟨micro, rest, rfl⟩ := List.exists_cons_of_ne_nil hpending
    refine ⟨0, micro, rfl, ?_⟩
    cases micro with
    | fma operands => exact fun _ other hother hisLoad => hload ⟨other, hother, hisLoad⟩
    | loadRow id addr line => trivial
    | loadBRow id addr row => trivial
    | storeRow addr row => trivial

/-- With nothing pending, no wait holds a Minion up. -/
theorem issue_lt {op : TensorOp} {rest : List TensorOp} {unit : TensorUnit R} :
    (Core.issue ⟨op :: rest, [], unit⟩).work < Core.work ⟨op :: rest, [], unit⟩ := by
  rcases Core.issue_work (⟨op :: rest, [], unit⟩ : Core R) with heq | hlt
  · exfalso
    have hrest : (Core.issue (⟨op :: rest, [], unit⟩ : Core R)).rest = rest := by
      unfold Core.issue
      dsimp only
      split
      next => rfl
      next => rw [if_pos (by simp)]
      next => rfl
    rw [heq] at hrest
    exact List.cons_ne_self op rest hrest
  · exact hlt

variable [AddCommMonoid R] [Mul R]

theorem Core.perform_work (c : Core R) (i : ℕ) (mem : Memory R) :
    (c.perform i mem).2 = c ∨ (c.perform i mem).2.work < c.work := by
  obtain ⟨rest, pending, unit⟩ := c
  cases hsome : pending[i]? with
  | none =>
    rw [perform_of_none hsome]
    exact .inl rfl
  | some micro =>
    by_cases hready : micro.Ready pending
    · right
      have hlt := (List.getElem?_eq_some_iff.1 hsome).1
      rw [perform_of_ready hsome hready]
      simp only [Core.work, List.length_eraseIdx_of_lt hlt]
      omega
    · rw [perform_of_not_ready hsome hready]
      exact .inl rfl

theorem Core.exists_act (c : Core R) (hrest : c.rest ≠ []) :
    ∃ act, ∀ mem, (c.act act mem).2.work < c.work := by
  obtain ⟨rest, pending, unit⟩ := c
  cases pending with
  | nil =>
    obtain ⟨op, rest, rfl⟩ := List.exists_cons_of_ne_nil hrest
    exact ⟨.issue, fun _ => issue_lt⟩
  | cons micro pending =>
    obtain ⟨i, ready, hsome, hready⟩ := exists_ready (List.cons_ne_nil micro pending)
    refine ⟨.perform i, fun mem => ?_⟩
    have hlt := (List.getElem?_eq_some_iff.1 hsome).1
    simp only [Core.act]
    rw [perform_of_ready hsome hready]
    simp only [Core.work, List.length_eraseIdx_of_lt hlt]
    rw [List.length_cons] at hlt ⊢
    omega

theorem Core.act_rest {c : Core R} (hrest : c.rest = []) (act : Act) (mem : Memory R) :
    (c.act act mem).2.rest = [] := by
  obtain ⟨rest, pending, unit⟩ := c
  obtain rfl := hrest
  cases act with
  | issue => rfl
  | perform i =>
    simp only [Core.act, Core.perform]
    split
    · rfl
    · split <;> rfl

theorem finishes : Finishes (Core.act (R := R)) Core.work fun c => c.rest = [] where
  decreases act mem c := by
    cases act with
    | issue => exact c.issue_work
    | perform i => exact c.perform_work i mem
  enabled c hrest := c.exists_act hrest
  final act mem _ hrest := Core.act_rest hrest act mem

/-- On every fair schedule, the kernel comes to a point from which on all harts of the launch have
returned and `C` is the product. -/
theorem sgemm_terminates (showF32 : UInt32 → String)
    (m n k alpha lda ldb beta ldc nShires : UInt32) (a b c available : UInt64) (args : GemmArgs)
    (haccepted : sgemm showF32 m n k alpha a lda b ldb beta c ldc nShires available = .ok args)
    (hlayout : Layout args) (m0 : Memory R) (units : UInt32 → TensorUnit R)
    (schedule : ℕ → UInt32 × Act) (hfair : Fair schedule) :
    ∃ t, ∀ t' ≥ t,
      (∀ hart : UInt32, hart.toNat < 64 * nShires.toNat →
        ((runTo Core.act schedule (args.launch m0 units) t').core hart).rest = []) ∧
      ∀ i < m.toNat, ∀ j < n.toNat,
        (runTo Core.act schedule (args.launch m0 units) t').mem (word c.toNat ldc.toNat i j) =
          ∑ l ∈ Finset.range k.toNat,
            m0 (word a.toNat lda.toNat i l) * m0 (word b.toNat ldb.toNat l j) := by
  obtain ⟨haccepted, hargs⟩ := accepted_of_sgemm haccepted
  have hshires : nShires.toUInt64.toNat = nShires.toNat := UInt32.toNat_toUInt64 nShires
  obtain ⟨t, ht⟩ := finishes.all (s := args.launch m0 units) hfair
    ((List.range (64 * nShires.toNat)).map UInt32.ofNat)
  refine ⟨t, fun t' hle => ?_⟩
  have hreturned : ∀ hart : UInt32, hart.toNat < 64 * nShires.toNat →
      ((runTo Core.act schedule (args.launch m0 units) t').core hart).rest = [] :=
    fun hart hlt => ht t' hle hart
      (List.mem_map.2 ⟨hart.toNat, List.mem_range.2 hlt, UInt32.ofNat_toNat⟩)
  refine ⟨hreturned, fun i hi j hj => ?_⟩
  obtain rfl := hargs
  refine Separate.settled ⟨hlayout, haccepted⟩ units _ (fun hart hlt => ?_) hi hj
  rw [hshires] at hlt
  exact hreturned hart hlt

/-- Every move comes up again and again. -/
def everyMove (t : ℕ) : UInt32 × Act :=
  let move := Nat.unpair (Nat.unpair t).2
  (.ofNat move.1, if move.2 = 0 then .issue else .perform (move.2 - 1))

theorem everyMove_fair : Fair everyMove := by
  intro hart act start
  have hcode : ∃ code, act = if code = 0 then .issue else .perform (code - 1) := by
    cases act with
    | issue => exact ⟨0, rfl⟩
    | perform i => exact ⟨i + 1, rfl⟩
  obtain ⟨code, rfl⟩ := hcode
  refine ⟨Nat.pair start (Nat.pair hart.toNat code), Nat.left_le_pair start _, ?_⟩
  simp only [everyMove, Nat.unpair_pair, UInt32.ofNat_toNat]

theorem sgemm_terminates_twoRounds :
    ∃ t, ∀ t' ≥ t,
      (∀ hart : UInt32, hart.toNat < 64 * (1 : UInt32).toNat →
        ((runTo Core.act everyMove (twoRounds.launch (fun w => w + 1) fun _ => cluttered)
          t').core hart).rest = []) ∧
      ∀ i < (2 : UInt32).toNat, ∀ j < (1 : UInt32).toNat,
        (runTo Core.act everyMove (twoRounds.launch (fun w => w + 1) fun _ => cluttered) t').mem
          (word (8192 : UInt64).toNat (64 : UInt32).toNat i j) =
            ∑ l ∈ Finset.range (17 : UInt32).toNat,
              (word (0 : UInt64).toNat (128 : UInt32).toNat i l + 1) *
                (word (4096 : UInt64).toNat (64 : UInt32).toNat l j + 1) :=
  sgemm_terminates (fun _ => "") 2 1 17 0x3F800000 128 64 0 64 1 0 4096 8192 1 twoRounds rfl
    ⟨by decide, by decide, by decide, by decide, by decide⟩ (fun w => w + 1) (fun _ => cluttered)
    everyMove everyMove_fair

end EtSoc.Gemm

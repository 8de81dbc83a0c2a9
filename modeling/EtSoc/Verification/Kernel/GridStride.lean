import EtSoc.Verification.Kernel.Ranks

/-! # The grid-stride distribution is exactly-once

For any order of the rounds of the harts that keeps each hart's own order. -/

namespace EtSoc.PsMath

open ByteMemory

variable {ps : PsUnit} {args : PsMathTestArgs} {harts : List UInt32} {hart : UInt32} {u : ℕ}
  {rounds : List (UInt32 × ℕ)} {s s₀ : KernelState}

/-! ## Units -/

theorem mem_units (hmask : args.shireMask ≠ 0) : u ∈ units args hart ↔
    u < nUnits args ∧ launched args.shireMask hart = true ∧
      u % (nMinions args.shireMask).toNat = (rank args.shireMask hart).toNat := by
  by_cases h : launched args.shireMask hart = true
  · obtain ⟨p, hp, rfl⟩ := exists_primary h
    have hrank : (rank args.shireMask (primary p.1 p.2)).toNat < (nMinions args.shireMask).toNat :=
      (bijOn_rank args.shireMask).mapsTo hp
    rw [units, if_pos h, Strides.mem_strided (nMinions_pos hmask) (by omega), Nat.mod_eq_of_lt hrank]
    refine and_congr_right fun _ => ⟨fun hmem => ⟨h, hmem.2⟩, fun hmem => ⟨?_, hmem.2⟩⟩
    rw [← hmem.2]
    exact Nat.mod_le ..
  · simp [units, h]

theorem nodup_units (hmask : args.shireMask ≠ 0) (hart : UInt32) : (units args hart).Nodup := by
  rw [units]
  split
  · exact Strides.nodup_strided (nMinions_pos hmask)
  · exact List.nodup_nil

/-- Each unit falls to one hart. -/
theorem exists_hart (hmask : args.shireMask ≠ 0) (hu : u < nUnits args) :
    ∃ hart, launched args.shireMask hart = true ∧ u ∈ units args hart ∧
      ∀ hart', u ∈ units args hart' → hart' = hart := by
  obtain ⟨hart, hlaunched, hrank, hunique⟩ :=
    existsUnique_rank (Nat.mod_lt u (nMinions_pos hmask))
  refine ⟨hart, hlaunched, (mem_units hmask).2 ⟨hu, hlaunched, hrank.symm⟩, fun hart' hmem => ?_⟩
  obtain ⟨-, hlaunched', hrank'⟩ := (mem_units hmask).1 hmem
  exact hunique hart' hlaunched' hrank'.symm

/-! ## Interleavings -/

/-- Each of the harts makes its own rounds in its own order, and no other hart makes any. -/
def Interleaves (args : PsMathTestArgs) (harts : List UInt32) (rounds : List (UInt32 × ℕ)) : Prop :=
  ∀ hart, (rounds.filter fun round => round.1 = hart).map Prod.snd =
    if hart ∈ harts then units args hart else []

theorem Interleaves.mem (h : Interleaves args harts rounds) (hmem : (hart, u) ∈ rounds) :
    hart ∈ harts ∧ u ∈ units args hart := by
  have hu : u ∈ (rounds.filter fun round => round.1 = hart).map Prod.snd :=
    List.mem_map.2 ⟨(hart, u), List.mem_filter.2 ⟨hmem, by simp⟩, rfl⟩
  rw [h hart] at hu
  split at hu
  · exact ⟨by assumption, hu⟩
  · simp at hu

theorem Interleaves.filter_unit (h : Interleaves args harts rounds) (hmask : args.shireMask ≠ 0)
    (hharts : ∀ hart, launched args.shireMask hart = true → hart ∈ harts) (hu : u < nUnits args) :
    ∃ hart, launched args.shireMask hart = true ∧
      (rounds.filter fun round => round.2 = u) = [(hart, u)] := by
  obtain ⟨hart, hlaunched, hmem, hunique⟩ := exists_hart hmask hu
  refine ⟨hart, hlaunched, ?_⟩
  -- Only that hart makes a round for the unit.
  have hfst : ∀ round ∈ rounds, round.2 = u → round.1 = hart := by
    rintro ⟨hart', u'⟩ hround rfl
    exact hunique hart' (h.mem hround).2
  have hfilter : (rounds.filter fun round => round.2 = u) =
      (rounds.filter fun round => round.1 = hart).filter fun round => round.2 = u := by
    rw [List.filter_filter]
    refine List.filter_congr fun round hround => ?_
    by_cases heq : round.2 = u
    · simp [heq, hfst round hround heq]
    · simp [heq]
  have hsnd : ((rounds.filter fun round => round.2 = u).map Prod.snd) = [u] := by
    have hown := h hart
    rw [if_pos (hharts hart hlaunched)] at hown
    have hcomp : (fun round : UInt32 × ℕ => decide (round.2 = u)) =
      (fun v => decide (v = u)) ∘ Prod.snd := rfl
    rw [hfilter, hcomp, ← List.filter_map, hown, List.filter_eq,
      List.count_eq_one_of_mem (nodup_units hmask hart) hmem, List.replicate_one]
  have hall : ∀ round ∈ rounds.filter fun round => round.2 = u, round.1 = hart := fun round hround =>
    hfst round (List.mem_filter.1 hround).1 (by simpa using (List.mem_filter.1 hround).2)
  obtain ⟨round, hround, hval⟩ := List.map_eq_singleton_iff.1 hsnd
  rw [hround] at hall
  rw [hround, ← hval, ← hall round (List.mem_singleton_self _)]

/-- No unit is taken twice. -/
theorem Interleaves.nodup (h : Interleaves args harts rounds) (hmask : args.shireMask ≠ 0)
    (hharts : ∀ hart, launched args.shireMask hart = true → hart ∈ harts) :
    (rounds.map Prod.snd).Nodup := by
  rw [List.nodup_iff_count_le_one]
  intro u
  rw [List.count_eq_countP, List.countP_map, List.countP_eq_length_filter]
  by_cases hu : u < nUnits args
  · obtain ⟨hart, -, hfilter⟩ := h.filter_unit hmask hharts hu
    simp only [Function.comp_def, beq_eq_decide, hfilter, List.length_singleton, Nat.le_refl]
  · have hnone : (rounds.filter fun round => (fun v => v == u) (Prod.snd round)) = [] := by
      rw [List.filter_eq_nil_iff]
      rintro ⟨hart, v⟩ hround
      have hv := ((mem_units hmask).1 (h.mem hround).2).1
      simp only [beq_iff_eq]
      omega
    simp [Function.comp_def, hnone]

/-- Harts that run one after another. -/
theorem run_eq (harts : List UInt32) (s : KernelState) : run ps args harts s =
    runRounds ps args (harts.flatMap fun hart => (units args hart).map fun u => (hart, u)) s := by
  induction harts generalizing s with
  | nil => rfl
  | cons hart harts ih =>
    rw [List.flatMap_cons, runRounds, List.foldl_append, List.foldl_map]
    exact ih _

theorem interleaves_sequential (hnodup : harts.Nodup) :
    Interleaves args harts (harts.flatMap fun hart => (units args hart).map fun u => (hart, u)) := by
  intro hart
  have hown : ∀ hart', (((units args hart').map fun u => (hart', u)).filter
      fun round => round.1 = hart).map Prod.snd = if hart' = hart then units args hart' else [] := by
    intro hart'
    by_cases heq : hart' = hart <;> simp [List.filter_map, Function.comp_def, heq]
  induction harts with
  | nil => rfl
  | cons hart' harts ih =>
    rw [List.flatMap_cons, List.filter_append, List.map_append, ih (List.nodup_cons.1 hnodup).2, hown]
    have hnot := (List.nodup_cons.1 hnodup).1
    by_cases heq : hart' = hart
    · subst heq
      simp [hnot]
    · simp [heq, Ne.symm heq, List.mem_cons]

/-! ## One round -/

/-- The two registers stored for a unit. -/
def transformed (ps : PsUnit) (args : PsMathTestArgs) (bytes : UInt64 → UInt8) (u : ℕ) :
    List UInt8 :=
  let source := args.input + UInt64.ofNat (u * cacheLine)
  (apply ps args.operation (loadPs bytes source)).toList ++
    (apply ps args.operation (loadPs bytes (source + UInt64.ofNat psBytes))).toList

theorem length_transformed (bytes : UInt64 → UInt8) :
    (transformed ps args bytes u).length = cacheLine := by
  simp [transformed, cacheLine]

theorem processUnit_bytes (hart : UInt32) (s : KernelState) (u : ℕ) :
    (processUnit ps args hart s u).bytes =
      write s.bytes (args.output + UInt64.ofNat (u * cacheLine)) (transformed ps args s.bytes u) := by
  rw [transformed, write_append, Vector.length_toList]
  rfl

/-- What a hart does for a unit. -/
def unitAccesses (args : PsMathTestArgs) (round : UInt32 × ℕ) : List Access :=
  let offset := UInt64.ofNat (round.2 * cacheLine)
  let source := args.input + offset
  let destination := args.output + offset
  let half := UInt64.ofNat psBytes
  [⟨round.1, round.2, .invalidate, source, cacheLine⟩, ⟨round.1, round.2, .load, source, psBytes⟩,
    ⟨round.1, round.2, .load, source + half, psBytes⟩,
    ⟨round.1, round.2, .store, destination, psBytes⟩,
    ⟨round.1, round.2, .store, destination + half, psBytes⟩,
    ⟨round.1, round.2, .writeback, destination, cacheLine⟩]

theorem runRounds_accesses (rounds : List (UInt32 × ℕ)) (s : KernelState) :
    (runRounds ps args rounds s).accesses = s.accesses ++ rounds.flatMap (unitAccesses args) := by
  induction rounds generalizing s with
  | nil => simp [runRounds]
  | cons round rounds ih =>
    rw [runRounds, List.foldl_cons]
    refine (ih _).trans ?_
    rw [List.flatMap_cons, ← List.append_assoc]
    rfl

theorem filter_unitAccesses (rounds : List (UInt32 × ℕ)) (u : ℕ) :
    ((rounds.flatMap (unitAccesses args)).filter fun a => a.unit = u) =
      (rounds.filter fun round => round.2 = u).flatMap (unitAccesses args) := by
  induction rounds with
  | nil => rfl
  | cons round rounds ih =>
    rw [List.flatMap_cons, List.filter_append, ih, List.filter_cons]
    by_cases heq : round.2 = u <;> simp [heq, unitAccesses]

/-! ## Memory -/

/-- The arrays fit in the address space, and no output line shares a byte with the input line of
another unit. -/
structure Apart (args : PsMathTestArgs) : Prop where
  fits : cacheLine * nUnits args ≤ 2 ^ 64
  lines : ∀ u < nUnits args, ∀ v < nUnits args, u ≠ v → ∀ j < cacheLine, ∀ k < cacheLine,
    args.input + UInt64.ofNat (u * cacheLine + j) ≠ args.output + UInt64.ofNat (v * cacheLine + k)

/-- The lines of the units in `done` are written, and nothing else is. -/
structure Written (ps : PsUnit) (args : PsMathTestArgs) (s₀ : KernelState) (done : List ℕ)
    (s : KernelState) : Prop where
  line : Apart args → ∀ u ∈ done, ∀ k, (hk : k < cacheLine) →
    s.bytes (args.output + UInt64.ofNat (u * cacheLine + k)) =
      (transformed ps args s₀.bytes u).get ⟨k, length_transformed s₀.bytes ▸ hk⟩
  rest : ∀ addr, (∀ u ∈ done, ∀ k < cacheLine,
    addr ≠ args.output + UInt64.ofNat (u * cacheLine + k)) → s.bytes addr = s₀.bytes addr

variable {done : List ℕ}

theorem Written.start : Written ps args s₀ [] s₀ := by
  constructor <;> simp

theorem ne_of_units (h : Apart args) {v j k : ℕ} (hu : u < nUnits args) (hv : v < nUnits args)
    (hne : u ≠ v) (hj : j < cacheLine) (hk : k < cacheLine) :
    args.output + UInt64.ofNat (u * cacheLine + j) ≠
      args.output + UInt64.ofNat (v * cacheLine + k) := by
  have hfits := h.fits
  simp only [cacheLine] at hfits hj hk ⊢
  rw [Ne, add_ofNat_inj (by omega) (by omega)]
  omega

theorem Written.transformed_eq (h : Written ps args s₀ done s) (hapart : Apart args)
    (hdone : ∀ v ∈ done, v < nUnits args) (hu : u < nUnits args) (hnew : u ∉ done) :
    transformed ps args s.bytes u = transformed ps args s₀.bytes u := by
  have hload : ∀ j ≤ psBytes,
      loadPs s.bytes (args.input + UInt64.ofNat (u * cacheLine) + UInt64.ofNat j) =
        loadPs s₀.bytes (args.input + UInt64.ofNat (u * cacheLine) + UInt64.ofNat j) := by
    intro j hj
    rw [loadPs, loadPs]
    congr 1
    funext k
    rw [← ofNat_add, ← ofNat_add]
    refine h.rest _ fun v hv k' hk' => ?_
    refine hapart.lines u hu v (hdone v hv) (fun heq => hnew (heq ▸ hv)) _ ?_ k' hk'
    have := k.isLt
    simp only [psBytes] at hj
    simp only [cacheLine]
    omega
  have hfirst := hload 0 (Nat.zero_le _)
  rw [show UInt64.ofNat 0 = 0 from rfl, UInt64.add_zero] at hfirst
  rw [transformed, transformed, hfirst, hload psBytes (Nat.le_refl _)]

theorem Written.step (h : Written ps args s₀ done s) (hdone : ∀ v ∈ done, v < nUnits args)
    (hu : u < nUnits args) (hnew : u ∉ done) (hart : UInt32) :
    Written ps args s₀ (done ++ [u]) (processUnit ps args hart s u) where
  line hapart v hv k hk := by
    rw [processUnit_bytes, ofNat_add]
    rcases List.mem_append.1 hv with hv | hv
    · have hne : v ≠ u := fun heq => hnew (heq ▸ hv)
      rw [write_of_ne, ← ofNat_add, h.line hapart v hv k hk]
      intro j hj
      rw [length_transformed] at hj
      rw [← ofNat_add, ← ofNat_add]
      exact ne_of_units hapart (hdone v hv) hu hne hk hj
    · rw [List.mem_singleton] at hv
      subst hv
      have hlen : (transformed ps args s.bytes v).length = cacheLine := length_transformed s.bytes
      rw [write_apply (by rw [hlen]; decide) (by rw [hlen]; exact hk)]
      simp only [h.transformed_eq hapart hdone hu hnew, List.get_eq_getElem]
  rest addr haddr := by
    rw [processUnit_bytes, write_of_ne]
    · exact h.rest addr fun v hv => haddr v (List.mem_append_left _ hv)
    · intro k hk
      rw [length_transformed] at hk
      rw [← ofNat_add]
      exact haddr u (by simp) k hk

theorem Written.runRounds (h : Written ps args s₀ done s)
    (hfit : ∀ v ∈ done ++ rounds.map Prod.snd, v < nUnits args)
    (hnodup : (done ++ rounds.map Prod.snd).Nodup) :
    Written ps args s₀ (done ++ rounds.map Prod.snd) (runRounds ps args rounds s) := by
  induction rounds generalizing done s with
  | nil => simpa [PsMath.runRounds] using h
  | cons round rounds ih =>
    rw [List.map_cons, List.append_cons] at hfit hnodup ⊢
    have hnew : round.2 ∉ done := by
      have := (List.nodup_append.1 (List.nodup_append.1 hnodup).1).2.2
      exact fun hmem => this _ hmem _ (List.mem_singleton_self _) rfl
    refine ih (h.step (fun v hv => hfit v ?_) (hfit round.2 ?_) hnew round.1) hfit hnodup
    · simp [hv]
    · simp

/-! ## The distribution -/

def base (args : PsMathTestArgs) : AccessKind → UInt64
  | .invalidate | .load => args.input
  | .store | .writeback => args.output

/-- Each unit is worked on once, by one of the launched harts, and nothing else is touched. -/
structure ExactlyOnce (args : PsMathTestArgs) (accesses : List Access) : Prop where
  unit : ∀ u < nUnits args, ∃ hart, launched args.shireMask hart = true ∧
    (accesses.filter fun a => a.unit = u) = unitAccesses args (hart, u)
  launched : ∀ a ∈ accesses, launched args.shireMask a.hart = true
  inside : ∀ a ∈ accesses, a.unit < nUnits args ∧ ∃ k, k + a.len ≤ cacheLine ∧
    a.addr = base args a.kind + UInt64.ofNat (a.unit * cacheLine + k)

theorem inside_of_mem {round : UInt32 × ℕ} {a : Access} (h : a ∈ unitAccesses args round) :
    a.hart = round.1 ∧ a.unit = round.2 ∧ ∃ k, k + a.len ≤ cacheLine ∧
      a.addr = base args a.kind + UInt64.ofNat (a.unit * cacheLine + k) := by
  have hzero : ∀ addr : UInt64, addr + UInt64.ofNat 0 = addr := fun addr => UInt64.add_zero addr
  simp only [unitAccesses, List.mem_cons, List.not_mem_nil, or_false] at h
  rcases h with rfl | rfl | rfl | rfl | rfl | rfl
  · exact ⟨rfl, rfl, 0, Nat.le_of_ble_eq_true rfl, by rw [ofNat_add, hzero]; rfl⟩
  · exact ⟨rfl, rfl, 0, Nat.le_of_ble_eq_true rfl, by rw [ofNat_add, hzero]; rfl⟩
  · exact ⟨rfl, rfl, psBytes, Nat.le_of_ble_eq_true rfl, by rw [ofNat_add]; rfl⟩
  · exact ⟨rfl, rfl, 0, Nat.le_of_ble_eq_true rfl, by rw [ofNat_add, hzero]; rfl⟩
  · exact ⟨rfl, rfl, psBytes, Nat.le_of_ble_eq_true rfl, by rw [ofNat_add]; rfl⟩
  · exact ⟨rfl, rfl, 0, Nat.le_of_ble_eq_true rfl, by rw [ofNat_add, hzero]; rfl⟩

theorem Interleaves.exactlyOnce (h : Interleaves args harts rounds) (hmask : args.shireMask ≠ 0)
    (hharts : ∀ hart, PsMath.launched args.shireMask hart = true → hart ∈ harts) :
    ExactlyOnce args (rounds.flatMap (unitAccesses args)) where
  unit u hu := by
    obtain ⟨hart, hlaunched, hfilter⟩ := h.filter_unit hmask hharts hu
    exact ⟨hart, hlaunched, by simp [filter_unitAccesses, hfilter]⟩
  launched a ha := by
    obtain ⟨⟨hart, u⟩, hround, hmem⟩ := List.mem_flatMap.1 ha
    rw [(inside_of_mem hmem).1]
    exact ((mem_units hmask).1 (h.mem hround).2).2.1
  inside a ha := by
    obtain ⟨⟨hart, u⟩, hround, hmem⟩ := List.mem_flatMap.1 ha
    obtain ⟨-, hunit, hinside⟩ := inside_of_mem hmem
    exact ⟨hunit ▸ ((mem_units hmask).1 (h.mem hround).2).1, hinside⟩

theorem Interleaves.written (h : Interleaves args harts rounds) (hmask : args.shireMask ≠ 0)
    (hharts : ∀ hart, PsMath.launched args.shireMask hart = true → hart ∈ harts) :
    Written ps args s (List.map Prod.snd rounds) (runRounds ps args rounds s) := by
  have hstart : Written ps args s [] s := .start
  refine hstart.runRounds ?_ (h.nodup hmask hharts)
  intro u hu
  obtain ⟨⟨hart, v⟩, hround, rfl⟩ := List.mem_map.1 hu
  exact ((mem_units hmask).1 (h.mem hround).2).1

/-- The final memory: each output line is the transformed input line, and no byte outside the
output changes. -/
structure Transformed (ps : PsUnit) (args : PsMathTestArgs) (bytes bytes' : UInt64 → UInt8) :
    Prop where
  line : Apart args → ∀ u < nUnits args, ∀ k, (hk : k < cacheLine) →
    bytes' (args.output + UInt64.ofNat (u * cacheLine + k)) =
      (transformed ps args bytes u).get ⟨k, length_transformed bytes ▸ hk⟩
  rest : ∀ addr, (∀ u < nUnits args, ∀ k < cacheLine,
    addr ≠ args.output + UInt64.ofNat (u * cacheLine + k)) → bytes' addr = bytes addr

theorem Interleaves.transformed (h : Interleaves args harts rounds) (hmask : args.shireMask ≠ 0)
    (hharts : ∀ hart, PsMath.launched args.shireMask hart = true → hart ∈ harts) :
    Transformed ps args s.bytes (runRounds ps args rounds s).bytes := by
  have hwritten : Written ps args s (List.map Prod.snd rounds) (runRounds ps args rounds s) :=
    h.written hmask hharts
  refine ⟨fun hapart u hu => hwritten.line hapart u ?_, fun addr haddr => hwritten.rest addr ?_⟩
  · obtain ⟨hart, -, hfilter⟩ := h.filter_unit hmask hharts hu
    have hmem : (hart, u) ∈ rounds.filter fun round => round.2 = u := by simp [hfilter]
    exact List.mem_map.2 ⟨(hart, u), (List.mem_filter.1 hmem).1, rfl⟩
  · intro u hu
    obtain ⟨⟨hart, v⟩, hround, rfl⟩ := List.mem_map.1 hu
    exact haddr v ((mem_units hmask).1 (h.mem hround).2).1

/-- However the harts of a set of shires that includes the mask interleave, the launched ones
share the units exactly once. -/
theorem distribution_exactlyOnce (ps : PsUnit) (args : PsMathTestArgs) (shires : Set UInt32)
    (harts : List UInt32) (hmask : args.shireMask ≠ 0)
    (hcover : ∀ shire, InMask args.shireMask shire.toNat → shire ∈ shires)
    (hharts : ∀ hart, hart ∈ harts ↔ shireId hart ∈ shires) :
    Set.BijOn (fun p => (rank args.shireMask (primary p.1 p.2)).toNat) (Minions args.shireMask)
      (Set.Iio (nMinions args.shireMask).toNat) ∧
    ∀ rounds, Interleaves args harts rounds → ∀ s, ∃ accesses,
      (runRounds ps args rounds s).accesses = s.accesses ++ accesses ∧
      ExactlyOnce args accesses ∧ Transformed ps args s.bytes (runRounds ps args rounds s).bytes := by
  have hall : ∀ hart, launched args.shireMask hart = true → hart ∈ harts := by
    intro hart hlaunched
    refine (hharts hart).2 (hcover _ ?_)
    rw [shireId_toNat]
    exact (launched_iff.1 hlaunched).2
  refine ⟨bijOn_rank args.shireMask, fun rounds h s => ?_⟩
  exact ⟨_, runRounds_accesses rounds s, h.exactlyOnce hmask hall, h.transformed hmask hall⟩

/-- Three launched shires, with one between them that is not, and four units more than they have
primary threads. -/
def sparse : PsMathTestArgs := ⟨0x1000, 0x9000, 1600, 11, psMathOpExp2⟩

def fourShires : List UInt32 := (List.range 256).map UInt32.ofNat

theorem mem_fourShires (hart : UInt32) : hart ∈ fourShires ↔ (shireId hart).toNat < 4 := by
  rw [shireId_toNat, fourShires, List.mem_map]
  constructor
  · rintro ⟨i, hi, rfl⟩
    have hlt := List.mem_range.1 hi
    rw [UInt32.toNat_ofNat_of_lt' (hlt.trans (by decide))]
    omega
  · intro h
    exact ⟨hart.toNat, List.mem_range.2 (by omega), UInt32.ofNat_toNat⟩

theorem distribution_exactlyOnce_sparse : ∃ accesses,
    (run ⟨id, id, id⟩ sparse fourShires ⟨fun _ => 0, []⟩).accesses = accesses ∧
      ExactlyOnce sparse accesses := by
  have hmem : ∀ shire : UInt32, InMask sparse.shireMask shire.toNat →
      shire ∈ {shire : UInt32 | shire.toNat < 4} := by
    intro shire h
    have heleven : ∀ i < 32, InMask sparse.shireMask i → i < 4 := by decide
    exact heleven _ (lt_of_inMask h) h
  have hnodup : fourShires.Nodup := by
    refine List.nodup_range.map_on fun i hi j hj heq => ?_
    have hlt : ∀ k ∈ List.range 256, k < UInt32.size := fun k hk =>
      (List.mem_range.1 hk).trans (by decide)
    rw [← UInt32.toNat_ofNat_of_lt' (hlt i hi), heq, UInt32.toNat_ofNat_of_lt' (hlt j hj)]
  obtain ⟨-, h⟩ := distribution_exactlyOnce ⟨id, id, id⟩ sparse {shire | shire.toNat < 4}
    fourShires (by decide) hmem mem_fourShires
  obtain ⟨accesses, heq, honce, -⟩ := h _ (interleaves_sequential hnodup) ⟨fun _ => 0, []⟩
  exact ⟨accesses, by rw [run_eq, heq]; rfl, honce⟩

end EtSoc.PsMath

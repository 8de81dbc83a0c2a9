import EtSoc.Library.BalancedSplit
import EtSoc.Model.Reduce
import EtSoc.Model.Session
import EtSoc.Verification.Kernel.Messages

/-! # The parallel reduction is exact -/

namespace EtSoc.Reduce

open Bytes ByteMemory

/-! ## Ranges -/

namespace Grid
variable {g : Grid}

theorem active_iff : g.active = true ↔ g.hart.toNat < g.nHarts.toNat := by
  rw [active, decide_eq_true_iff, UInt32.lt_iff_toNat_lt]

theorem range_of_active (h : g.active = true) (n : ℕ) :
    g.range n = (BalancedSplit.start n g.nHarts.toNat g.hart.toNat,
      BalancedSplit.start n g.nHarts.toNat (g.hart.toNat + 1)) := by
  have hlt := active_iff.1 h
  rw [range, if_neg (not_not.2 h), Nat.max_eq_left (by omega), BalancedSplit.start_succ]
  rfl

theorem range_of_idle (h : ¬g.active = true) (n : ℕ) : g.range n = (n, n) := by
  rw [range, if_pos h]

theorem mySlice_of_active {α : Type} (h : g.active = true) (data : List α) :
    g.mySlice data = some (BalancedSplit.slice g.nHarts.toNat data g.hart.toNat) := by
  have hlt := active_iff.1 h
  have hstop : BalancedSplit.start data.length g.nHarts.toNat (g.hart.toNat + 1) ≤ data.length :=
    BalancedSplit.start_le (by omega) hlt
  rw [mySlice, range_of_active h]
  exact if_pos ⟨BalancedSplit.start_mono (Nat.le_succ _), hstop⟩

end Grid

/-- The harts below `nHarts` share `[0, n)` evenly and in order, and others get nothing. -/
structure Partition (nHarts : UInt32) (n : ℕ) : Prop where
  first : (Grid.range ⟨0, nHarts⟩ n).1 = 0
  next : ∀ h h' : UInt32, h'.toNat = h.toNat + 1 → h' < nHarts →
    (Grid.range ⟨h, nHarts⟩ n).2 = (Grid.range ⟨h', nHarts⟩ n).1
  last : ∀ h : UInt32, h.toNat + 1 = nHarts.toNat → (Grid.range ⟨h, nHarts⟩ n).2 = n
  ordered : ∀ h : UInt32, (Grid.range ⟨h, nHarts⟩ n).1 ≤ (Grid.range ⟨h, nHarts⟩ n).2
  disjoint : ∀ h h' : UInt32, h < h' →
    (Grid.range ⟨h, nHarts⟩ n).2 ≤ (Grid.range ⟨h', nHarts⟩ n).1
  cover : ∀ i < n, ∃ h < nHarts, (Grid.range ⟨h, nHarts⟩ n).1 ≤ i ∧
    i < (Grid.range ⟨h, nHarts⟩ n).2
  even : ∀ h h' : UInt32, h < nHarts → h' < nHarts →
    (Grid.range ⟨h, nHarts⟩ n).2 - (Grid.range ⟨h, nHarts⟩ n).1 ≤
      (Grid.range ⟨h', nHarts⟩ n).2 - (Grid.range ⟨h', nHarts⟩ n).1 + 1
  idle : ∀ h : UInt32, ¬h < nHarts → Grid.range ⟨h, nHarts⟩ n = (n, n)

theorem partition (nHarts : UInt32) (n : ℕ) (hpos : 1 ≤ nHarts) : Partition nHarts n := by
  have hpos : 0 < nHarts.toNat := UInt32.le_iff_toNat_le.1 hpos
  have hrange : ∀ h : UInt32, h < nHarts → Grid.range ⟨h, nHarts⟩ n =
      (BalancedSplit.start n nHarts.toNat h.toNat, BalancedSplit.start n nHarts.toNat (h.toNat + 1)) :=
    fun h hlt => Grid.range_of_active (decide_eq_true hlt) n
  have hidle : ∀ h : UInt32, ¬h < nHarts → Grid.range ⟨h, nHarts⟩ n = (n, n) :=
    fun h hlt => Grid.range_of_idle (g := ⟨h, nHarts⟩) (by simpa [Grid.active] using hlt) n
  have hzero : (0 : UInt32) < nHarts := UInt32.lt_iff_toNat_lt.2 hpos
  refine ⟨?_, fun h h' hsucc hlt => ?_, fun h hlast => ?_, fun h => ?_, fun h h' hlt => ?_,
    fun i hi => ?_, fun h h' hh hh' => ?_, hidle⟩
  · rw [hrange 0 hzero, UInt32.toNat_zero, BalancedSplit.start_zero]
  · have hh : h < nHarts := by
      rw [UInt32.lt_iff_toNat_lt] at hlt ⊢
      omega
    rw [hrange h hh, hrange h' hlt, hsucc]
  · have hh : h < nHarts := by
      rw [UInt32.lt_iff_toNat_lt]
      omega
    rw [hrange h hh, hlast, BalancedSplit.start_parts n hpos]
  · by_cases hh : h < nHarts
    · rw [hrange h hh]
      exact BalancedSplit.start_mono (Nat.le_succ _)
    · rw [hidle h hh]
  · by_cases hh' : h' < nHarts
    · rw [hrange h (UInt32.lt_trans hlt hh'), hrange h' hh']
      exact BalancedSplit.start_mono (UInt32.lt_iff_toNat_lt.1 hlt)
    · rw [hidle h' hh']
      by_cases hh : h < nHarts
      · rw [hrange h hh]
        exact BalancedSplit.start_le hpos (UInt32.lt_iff_toNat_lt.1 hh)
      · rw [hidle h hh]
  · -- The last part that starts at or before `i` holds it.
    obtain ⟨h, hlt, hlo, hhi⟩ := BalancedSplit.exists_part hpos hi
    have hsize : h < UInt32.size := hlt.trans nHarts.toNat_lt
    have htoNat : (UInt32.ofNat h).toNat = h := UInt32.toNat_ofNat_of_lt' hsize
    have hh : UInt32.ofNat h < nHarts := by
      rw [UInt32.lt_iff_toNat_lt, htoNat]
      exact hlt
    refine ⟨UInt32.ofNat h, hh, ?_⟩
    rw [hrange _ hh, htoNat]
    exact ⟨hlo, hhi⟩
  · rw [hrange h hh, hrange h' hh', BalancedSplit.start_succ, BalancedSplit.start_succ]
    dsimp only
    split <;> split <;> omega

/-! ## Sums -/

/-- The sum of words as a number. -/
def total (data : List UInt32) : ℕ := (data.map UInt32.toNat).sum

theorem total_cons (x : UInt32) (data : List UInt32) :
    total (x :: data) = x.toNat + total data := by
  rw [total, List.map_cons, List.sum_cons]
  rfl

theorem total_le (data : List UInt32) : total data ≤ data.length * (2 ^ 32 - 1) := by
  induction data with
  | nil => exact Nat.le_refl _
  | cons x data ih =>
    have hx := x.toNat_lt
    rw [total_cons, List.length_cons, Nat.succ_mul]
    omega

/-- Fewer than `2 ^ 32` words have a sum that fits 64 bits. -/
theorem total_lt {data : List UInt32} (hlen : data.length < 2 ^ 32) : total data < 2 ^ 64 := by
  have hle := total_le data
  have := Nat.mul_le_mul_right (2 ^ 32 - 1) hlen.le
  omega

theorem sumU64_eq {data : List UInt32} (hlen : data.length < 2 ^ 32) :
    sumU64 data = some (UInt64.ofNat (total data)) := by
  have hloop : ∀ (data : List UInt32) (acc : UInt64), acc.toNat + total data < 2 ^ 64 →
      data.foldlM (fun acc x => if acc.toNat + x.toNat < 2 ^ 64 then some (acc + x.toUInt64)
        else none) acc = some (acc + UInt64.ofNat (total data)) := by
    intro data
    induction data with
    | nil => exact fun acc _ => congrArg some (UInt64.add_zero acc).symm
    | cons x data ih =>
      intro acc hlt
      rw [total_cons] at hlt
      have hsum : (acc + x.toUInt64).toNat = acc.toNat + x.toNat := by
        rw [UInt64.toNat_add, UInt32.toNat_toUInt64]
        exact Nat.mod_eq_of_lt (by omega)
      have hx : x.toUInt64 = UInt64.ofNat x.toNat := by
        apply UInt64.toNat.inj
        rw [UInt32.toNat_toUInt64, UInt64.toNat_ofNat_of_lt' (x.toNat_lt.trans (by decide))]
      rw [List.foldlM_cons, if_pos (by omega)]
      change data.foldlM _ (acc + x.toUInt64) = _
      rw [ih _ (by rw [hsum]; omega), total_cons, UInt64.ofNat_add, ← UInt64.add_assoc, hx]
  have hlt := total_lt hlen
  have := hloop data 0 (by rw [UInt64.toNat_zero]; omega)
  rwa [UInt64.zero_add] at this

/-! ## One hart -/

/-- The bytes of the output cell of a hart. -/
def cell (args : ReduceArgs) (hart : UInt32) : List UInt64 :=
  span (args.out + UInt64.ofNat (hart.toNat * cacheLine)) 8

/-- What a hart contributes. -/
def contribution (args : ReduceArgs) (data : List UInt32) (hart : UInt32) : ℕ :=
  total (BalancedSplit.slice args.nHarts.toNat data hart.toNat)

/-- The input and the output array share no byte. -/
def Apart (args : ReduceArgs) : Prop :=
  ∀ i < 4 * args.n.toNat, ∀ j < cacheLine * args.nHarts.toNat,
    args.input + UInt64.ofNat i ≠ args.out + UInt64.ofNat j

/-- The harts `done` have stored what they contribute, and nothing else was stored. -/
structure Reduced (args : ReduceArgs) (data : List UInt32) (s₀ : KernelState)
    (done : List UInt32) (s : KernelState) : Prop where
  input : deviceSlice s.bytes args.input args.n.toNat = data
  cells : ∀ h ∈ done, h < args.nHarts →
    (cell args h).map s.bytes = leBytes 8 (contribution args data h)
  stored : ∀ p ∈ s.stored, p ∈ s₀.stored ∨ p.1 < args.nHarts ∧ p.1 ∈ done ∧ p.2 ∈ cell args p.1

variable {args : ReduceArgs} {data : List UInt32} {s₀ s : KernelState} {done : List UInt32}

theorem outputCell_eq {hart : UInt32} (h : hart < args.nHarts) :
    Grid.outputCell ⟨hart, args.nHarts⟩ args.out =
      some (args.out + UInt64.ofNat (hart.toNat * cacheLine)) := by
  have hactive : Grid.active ⟨hart, args.nHarts⟩ = true := decide_eq_true h
  have hhart : hart.toUInt64 = UInt64.ofNat hart.toNat := by
    apply UInt64.toNat.inj
    rw [UInt32.toNat_toUInt64, UInt64.toNat_ofNat_of_lt' (hart.toNat_lt.trans (by decide))]
  rw [Grid.outputCell, if_pos hactive, hhart, UInt64.ofNat_mul]

/-- Bytes of the output array that are the same lie at the same place. -/
theorem cell_index_inj {h h' : UInt32} {k k' : ℕ} (hk : k < 8) (hk' : k' < 8)
    (heq : args.out + UInt64.ofNat (h.toNat * cacheLine) + UInt64.ofNat k =
      args.out + UInt64.ofNat (h'.toNat * cacheLine) + UInt64.ofNat k') : h = h' ∧ k = k' := by
  have hlt := h.toNat_lt
  have hlt' := h'.toNat_lt
  rw [← ofNat_add, ← ofNat_add, add_ofNat_inj (by simp only [cacheLine]; omega)
    (by simp only [cacheLine]; omega)] at heq
  simp only [cacheLine] at heq
  exact ⟨UInt32.toNat.inj (by omega), by omega⟩

theorem report_isSome (args : ReduceArgs) (partialSum : UInt64) :
    ∃ message, report args partialSum = some message :=
  ⟨_, Message.compose_bind_asSlice _⟩

/-- A hart that takes part stores its contribution in its own cell, and changes no other
byte. -/
theorem entryPoint_of_active {hart : UInt32} (h : hart < args.nHarts)
    (hinput : deviceSlice s.bytes args.input args.n.toNat = data) :
    ∃ s', entryPoint args hart s = some s' ∧
      s'.bytes = write s.bytes (args.out + UInt64.ofNat (hart.toNat * cacheLine))
        (leBytes 8 (contribution args data hart)) ∧
      s'.stored = s.stored ++ (cell args hart).map fun a => (hart, a) := by
  have hactive : Grid.active ⟨hart, args.nHarts⟩ = true := decide_eq_true h
  have hlen : data.length = args.n.toNat := by
    rw [← hinput, deviceSlice, List.length_map, List.length_range]
  have hslice : (BalancedSplit.slice args.nHarts.toNat data hart.toNat).length < 2 ^ 32 := by
    have hn := args.n.toNat_lt
    rw [BalancedSplit.slice, List.length_take, List.length_drop]
    omega
  have hsum : (UInt64.ofNat (contribution args data hart)).toNat = contribution args data hart :=
    UInt64.toNat_ofNat_of_lt' (total_lt hslice)
  rw [entryPoint, if_neg (not_not.2 hactive), hinput, outputCell_eq h]
  dsimp only [Option.bind_eq_bind, Option.bind_some]
  rw [Grid.mySlice_of_active hactive]
  dsimp only [Option.bind_some]
  rw [sumU64_eq hslice]
  dsimp only [Option.bind_some]
  change ∃ s', (if hart = 0 then _ else _) = some s' ∧ _
  rw [show total (BalancedSplit.slice args.nHarts.toNat data hart.toNat) =
    contribution args data hart from rfl, hsum]
  split
  · obtain ⟨message, hmessage⟩ := report_isSome args (UInt64.ofNat (contribution args data hart))
    rw [hmessage]
    refine ⟨_, rfl, rfl, ?_⟩
    rw [cell]
    rfl
  · refine ⟨_, rfl, rfl, ?_⟩
    rw [cell]
    rfl

/-! ## All harts -/

/-- Storing in an output cell leaves the input alone. -/
theorem deviceSlice_write (hapart : Apart args) {hart : UInt32} (h : hart < args.nHarts)
    (bytes : UInt64 → UInt8) (value : ℕ) :
    deviceSlice (write bytes (args.out + UInt64.ofNat (hart.toNat * cacheLine)) (leBytes 8 value))
      args.input args.n.toNat = deviceSlice bytes args.input args.n.toNat := by
  have hhart := UInt32.lt_iff_toNat_lt.1 h
  refine List.map_congr_left fun i hi => ?_
  have hi := List.mem_range.1 hi
  refine congrArg (fun bs => UInt32.ofNat (leNat bs)) (List.map_congr_left fun a ha =>
    write_of_ne fun k hk => ?_)
  obtain ⟨j, hj, rfl⟩ := List.mem_map.1 ha
  have hj := List.mem_range.1 hj
  rw [length_leBytes] at hk
  rw [← ofNat_add, ← ofNat_add]
  exact hapart _ (by omega) _ (by simp only [cacheLine]; omega)

theorem map_cell_write {hart : UInt32} (bytes : UInt64 → UInt8) (value : ℕ) :
    (cell args hart).map (write bytes (args.out + UInt64.ofNat (hart.toNat * cacheLine))
      (leBytes 8 value)) = leBytes 8 value := by
  refine List.ext_getElem (by simp [cell, span]) fun k hk hk' => ?_
  rw [length_leBytes] at hk'
  simp only [cell, span, List.getElem_map, List.getElem_range]
  exact write_apply (by rw [length_leBytes]; omega) (by rwa [length_leBytes])

theorem map_cell_write_of_ne {hart hart' : UInt32} (hne : hart' ≠ hart) (bytes : UInt64 → UInt8)
    (value : ℕ) : (cell args hart').map (write bytes
      (args.out + UInt64.ofNat (hart.toNat * cacheLine)) (leBytes 8 value)) =
        (cell args hart').map bytes := by
  refine List.map_congr_left fun a ha => write_of_ne fun k hk heq => ?_
  obtain ⟨j, hj, rfl⟩ := List.mem_map.1 ha
  rw [length_leBytes] at hk
  exact hne (cell_index_inj (List.mem_range.1 hj) hk heq).1

/-- One more hart. -/
theorem Reduced.step (hapart : Apart args) (h : Reduced args data s₀ done s) (hart : UInt32) :
    ∃ s', entryPoint args hart s = some s' ∧ Reduced args data s₀ (done ++ [hart]) s' := by
  by_cases hhart : hart < args.nHarts
  · obtain ⟨s', hs', hbytes, hstored⟩ := entryPoint_of_active hhart h.input
    refine ⟨s', hs', ?_, fun h' hmem hlt => ?_, fun p hp => ?_⟩
    · rw [hbytes, deviceSlice_write hapart hhart, h.input]
    · rw [hbytes]
      by_cases heq : h' = hart
      · subst heq
        exact map_cell_write s.bytes _
      · rcases List.mem_append.1 hmem with hmem | hmem
        · rw [map_cell_write_of_ne heq]
          exact h.cells h' hmem hlt
        · exact absurd (List.mem_singleton.1 hmem) heq
    · rw [hstored] at hp
      rcases List.mem_append.1 hp with hp | hp
      · refine (h.stored p hp).imp_right fun hown => ⟨hown.1, ?_, hown.2.2⟩
        exact List.mem_append_left _ hown.2.1
      · obtain ⟨a, ha, rfl⟩ := List.mem_map.1 hp
        exact .inr ⟨hhart, by simp, ha⟩
  · refine ⟨s, ?_, h.input, fun h' hmem hlt => ?_, fun p hp => ?_⟩
    · rw [entryPoint, if_pos]
      simpa [Grid.active] using hhart
    · rcases List.mem_append.1 hmem with hmem | hmem
      · exact h.cells h' hmem hlt
      · exact absurd (List.mem_singleton.1 hmem ▸ hlt) hhart
    · exact (h.stored p hp).imp_right fun hown =>
        ⟨hown.1, List.mem_append_left _ hown.2.1, hown.2.2⟩

theorem Reduced.run (hapart : Apart args) (h : Reduced args data s₀ done s) (harts : List UInt32) :
    ∃ s', run args harts s = some s' ∧ Reduced args data s₀ (done ++ harts) s' := by
  induction harts generalizing s done with
  | nil => exact ⟨s, rfl, by rwa [List.append_nil]⟩
  | cons hart harts ih =>
    obtain ⟨s₁, hs₁, h₁⟩ := h.step hapart hart
    obtain ⟨s₂, hs₂, h₂⟩ := ih h₁
    refine ⟨s₂, ?_, by rwa [List.append_assoc] at h₂⟩
    rw [Reduce.run, List.foldlM_cons, hs₁]
    exact hs₂

/-! ## The array of results -/

/-- What is extracted for a hart is what its cell holds. -/
theorem extractPadded_eq (args : ReduceArgs) (bytes : UInt64 → UInt8) :
    extractPadded 8 args.nHarts.toNat
        ((span args.out (args.nHarts.toNat * cacheLine)).map bytes) =
      (List.range args.nHarts.toNat).map fun i => (cell args (UInt32.ofNat i)).map bytes := by
  refine List.map_congr_left fun i hi => ?_
  have hi := List.mem_range.1 hi
  have hsplit : args.nHarts.toNat * cacheLine =
      i * cacheLine + (8 + ((args.nHarts.toNat - i) * cacheLine - 8)) := by
    have hrest : (args.nHarts.toNat - i) * cacheLine + i * cacheLine =
        args.nHarts.toNat * cacheLine := by
      rw [← Nat.add_mul, Nat.sub_add_cancel hi.le]
    have hone : cacheLine ≤ (args.nHarts.toNat - i) * cacheLine :=
      Nat.le_mul_of_pos_left _ (by omega)
    simp only [cacheLine] at *
    omega
  have htoNat : (UInt32.ofNat i).toNat = i :=
    UInt32.toNat_ofNat_of_lt' (hi.trans args.nHarts.toNat_lt)
  have hlen : ∀ start len, ((span start len).map bytes).length = len := by simp [span]
  rw [hsplit, span_add, span_add, List.map_append, List.map_append, List.drop_left' (hlen _ _),
    List.take_left' (hlen _ _), cell, htoNat]

theorem sum_contributions (hpos : 0 < args.nHarts.toNat) (data : List UInt32) :
    ((List.range args.nHarts.toNat).map fun i => contribution args data (UInt32.ofNat i)).sum =
      total data := by
  have hslices := BalancedSplit.sum_slices hpos (data.map UInt32.toNat)
  rw [total, ← hslices]
  refine congrArg List.sum (List.map_congr_left fun i hi => ?_)
  have hi := List.mem_range.1 hi
  rw [contribution, UInt32.toNat_ofNat_of_lt' (hi.trans args.nHarts.toNat_lt), total,
    BalancedSplit.slice, BalancedSplit.slice, List.map_take, List.map_drop, List.length_map]

theorem Reduced.sum_extracted (h : Reduced args data s₀ done s) (hpos : 0 < args.nHarts.toNat)
    (hdata : data.length < 2 ^ 32) (hall : ∀ hart < args.nHarts, hart ∈ done) :
    ((extractPadded 8 args.nHarts.toNat
      ((span args.out (args.nHarts.toNat * cacheLine)).map s.bytes)).map leNat).sum =
        total data := by
  rw [extractPadded_eq, List.map_map, ← sum_contributions hpos]
  refine congrArg List.sum (List.map_congr_left fun i hi => ?_)
  have hi := List.mem_range.1 hi
  have hlt : UInt32.ofNat i < args.nHarts := by
    rw [UInt32.lt_iff_toNat_lt, UInt32.toNat_ofNat_of_lt' (hi.trans args.nHarts.toNat_lt)]
    exact hi
  have hbound : contribution args data (UInt32.ofNat i) < 256 ^ 8 := by
    refine total_lt ?_
    rw [BalancedSplit.slice, List.length_take, List.length_drop]
    omega
  change leNat ((cell args (UInt32.ofNat i)).map s.bytes) = _
  rw [h.cells _ (hall _ hlt) hlt, leNat_leBytes, Nat.mod_eq_of_lt hbound]

/-- Once every hart that takes part has run, in whatever order and among whatever others, each
has stored to its own cell only, and the host reads results whose sum is that of the input. -/
theorem reduce_exact (args : ReduceArgs) (harts : List UInt32) (s : KernelState)
    (hpos : 1 ≤ args.nHarts) (hapart : Apart args) (hall : ∀ hart < args.nHarts, hart ∈ harts) :
    (∀ n, Partition args.nHarts n) ∧
    ∃ s', run args harts s = some s' ∧
      (∀ p ∈ s'.stored, p ∈ s.stored ∨ p.1 < args.nHarts ∧ p.2 ∈ cell args p.1) ∧
      (∀ h h', ∀ a ∈ cell args h, a ∈ cell args h' → h = h') ∧
      ∀ (region : DeviceRegion) (sys sys' : Sys) (raw : List UInt8),
        memcpyD2h region.addr (args.nHarts.toNat * cacheLine) sys = (.ok raw, sys') →
        raw = (span args.out (args.nHarts.toNat * cacheLine)).map s'.bytes →
        ∃ values, downloadPadded 8 region args.nHarts.toNat sys = (.ok values, sys') ∧
          (values.map leNat).sum = total (deviceSlice s.bytes args.input args.n.toNat) := by
  have hstart : Reduced args (deviceSlice s.bytes args.input args.n.toNat) s [] s :=
    ⟨rfl, by simp, fun p hp => .inl hp⟩
  obtain ⟨s', hrun, h⟩ := hstart.run hapart harts
  rw [List.nil_append] at h
  have hdata : (deviceSlice s.bytes args.input args.n.toNat).length < 2 ^ 32 := by
    rw [deviceSlice, List.length_map, List.length_range]
    exact args.n.toNat_lt
  refine ⟨fun n => partition args.nHarts n hpos, s', hrun,
    fun p hp => (h.stored p hp).imp_right fun hown => ⟨hown.1, hown.2.2⟩,
    fun h h' a ha ha' => ?_, fun region sys sys' raw hread hraw => ?_⟩
  · obtain ⟨k, hk, rfl⟩ := List.mem_map.1 ha
    obtain ⟨k', hk', heq⟩ := List.mem_map.1 ha'
    exact (cell_index_inj (List.mem_range.1 hk) (List.mem_range.1 hk') heq.symm).1
  · refine ⟨extractPadded 8 args.nHarts.toNat raw, ?_, ?_⟩
    · change Program.Prog.bind (memcpyD2h _ _) _ sys = _
      rw [Program.Prog.bind, hread]
      rfl
    · rw [hraw]
      exact h.sum_extracted (UInt32.le_iff_toNat_le.1 hpos) hdata hall

/-- Three words, two harts, and a third that takes no part. -/
def threeWords : ReduceArgs := ⟨0, 64, 3, 2⟩

/-- The memory as the harts leave it, from one full of ones. -/
def reduced : KernelState :=
  (run threeWords [1, 5, 0] ⟨fun _ => 1, [], [], []⟩).getD ⟨fun _ => 0, [], [], []⟩

/-- A host whose device then copies the results to it at once. -/
def collecting : Sys :=
  Sys.init (Device.init 0 ⟨0, 2 ^ 20, 128, 1, 64⟩ 5)
    (World.init ⟨true, true, true, true, true, fun _ m => m, 4096⟩
      fun x => reduced.bytes (.ofNat x))
    [⟨[], .yes⟩, ⟨[], .yes⟩, ⟨[], .yes⟩,
      ⟨[.start 0, .copy 0 0, .answer 0 ([36] ++ List.replicate 35 0)], .response 0 0⟩, ⟨[], .yes⟩]

theorem reduce_exact_threeWords : (∀ n, Partition 2 n) ∧
    ∃ s', run threeWords [1, 5, 0] ⟨fun _ => 1, [], [], []⟩ = some s' ∧
      ∃ values sys', downloadPadded 8 ⟨64, 128⟩ 2 collecting = (.ok values, sys') ∧
        (values.map leNat).sum = 3 * 0x01010101 := by
  have hapart : Apart threeWords := by
    intro i hi j hj heq
    change i < 12 at hi
    change j < 128 at hj
    have hsum : (0 : UInt64) + UInt64.ofNat (64 + j) = 64 + UInt64.ofNat j := by
      rw [UInt64.ofNat_add, UInt64.zero_add]
      rfl
    have hne : i ≠ 64 + j := by omega
    exact hne ((add_ofNat_inj (by omega) (by omega)).1 (heq.trans hsum.symm))
  have hall : ∀ hart < threeWords.nHarts, hart ∈ [1, 5, 0] := by
    intro hart hlt
    have hlt : hart.toNat < 2 := UInt32.lt_iff_toNat_lt.1 hlt
    have hart_cases : hart.toNat = 0 ∨ hart.toNat = 1 := by omega
    rcases hart_cases with hzero | hone
    · simp [show hart = 0 from UInt32.toNat.inj hzero]
    · simp [show hart = 1 from UInt32.toNat.inj hone]
  obtain ⟨hpart, s', hrun, -, -, hdownload⟩ := reduce_exact threeWords [1, 5, 0]
    ⟨fun _ => 1, [], [], []⟩ (by decide) hapart hall
  have hreduced : reduced = s' := by rw [reduced, hrun, Option.getD_some]
  have htotal : total (deviceSlice (fun _ => 1) 0 3) = 3 * 0x01010101 := by decide +kernel
  obtain ⟨sys', hread⟩ : ∃ sys', memcpyD2h 64 128 collecting =
    (.ok ((span 64 128).map reduced.bytes), sys') := Program.Prog.eq_ok_of (by decide +kernel)
  obtain ⟨values, hvalues, hsum⟩ := hdownload ⟨64, 128⟩ collecting sys' _ hread
    (congrArg (fun t : KernelState => (span 64 128).map t.bytes) hreduced)
  exact ⟨hpart, s', hrun, values, sys', hvalues, hsum.trans htotal⟩

end EtSoc.Reduce

import EtSoc.Verification.Trace.Partitions

/-! # Confinement

When the entries that a buffer yields lie inside their own partitions, and are disjoint. -/

namespace EtSoc.Trace

open Bytes

/-! ## The entries of a walk -/

theorem lt_entryEnd (data : List UInt8) (off : ℕ) : off < entryEnd data off := by
  simp only [entryEnd, entryHeaderSize]
  omega

variable {data : List UInt8} {stop off o : ℕ}

/-- The entries of a walk lie between its ends. -/
theorem mem_walk (ho : o ∈ walk data stop off) : off ≤ o ∧ entryEnd data o ≤ stop := by
  induction off using walk.induct data stop with
  | case1 off hend ih =>
    rw [walk, if_pos hend, List.mem_cons] at ho
    obtain rfl | ho := ho
    · exact ⟨le_rfl, hend⟩
    · exact ⟨(lt_entryEnd data off).le.trans (ih ho).1, (ih ho).2⟩
  | case2 off hend =>
    rw [walk, if_neg hend] at ho
    simp at ho

/-- Each entry of a walk starts where the one before it ends, or later. -/
theorem pairwise_walk (data : List UInt8) (stop off : ℕ) :
    (walk data stop off).Pairwise fun o o' => entryEnd data o ≤ o' := by
  induction off using walk.induct data stop with
  | case1 off hend ih =>
    rw [walk, if_pos hend]
    exact .cons (fun o' ho' => (mem_walk ho').1) ih
  | case2 off hend =>
    rw [walk, if_neg hend]
    exact .nil

/-- The first entry, of those that follow one another from `off` on, that does not end by
`limit`. -/
def crossing (data : List UInt8) (limit off : ℕ) : ℕ :=
  if entryEnd data off ≤ limit then crossing data limit (entryEnd data off) else off
termination_by limit - off
decreasing_by simp only [entryEnd, entryHeaderSize] at *; omega

theorem le_crossing (data : List UInt8) (limit off : ℕ) : off ≤ crossing data limit off := by
  induction off using crossing.induct data limit with
  | case1 off hend ih =>
    rw [crossing, if_pos hend]
    exact (lt_entryEnd data off).le.trans ih
  | case2 off hend => rw [crossing, if_neg hend]

/-- A walk stays below `limit` exactly when the first entry that would cross it is beyond the
end of the walk too. -/
theorem forall_walk_le_iff (data : List UInt8) (stop limit off : ℕ) :
    (∀ o ∈ walk data stop off, entryEnd data o ≤ limit) ↔
      stop < entryEnd data (crossing data limit off) := by
  induction off using crossing.induct data limit with
  | case1 off hlimit ih =>
    rw [crossing, if_pos hlimit]
    by_cases hend : entryEnd data off ≤ stop
    · rw [walk, if_pos hend, List.forall_mem_cons, and_iff_right hlimit, ih]
    · rw [walk, if_neg hend]
      have hle := le_crossing data limit (entryEnd data off)
      have hlt := lt_entryEnd data (crossing data limit (entryEnd data off))
      exact iff_of_true (by simp) (by omega)
  | case2 off hlimit =>
    rw [crossing, if_neg hlimit]
    by_cases hend : entryEnd data off ≤ stop
    · rw [walk, if_pos hend, List.forall_mem_cons]
      exact iff_of_false (fun h => hlimit h.1) (by omega)
    · rw [walk, if_neg hend]
      exact iff_of_true (by simp) (by omega)

/-! ## The partitions of a buffer -/

namespace TraceBuffer

/-- Where partition `i` starts; partition 0 starts with the standard header. -/
def partitionStart (tb : TraceBuffer) (i : ℕ) : ℕ := if i = 0 then stdHeaderSize else i * tb.stride

/-- Where partition `i` ends; a partition that is alone is the whole buffer. -/
def partitionEnd (tb : TraceBuffer) (i : ℕ) : ℕ :=
  if 1 < tb.count then (i + 1) * tb.stride else tb.data.length

/-- The entries lie inside the buffer and inside their own partitions, and are disjoint. -/
structure Confined (tb : TraceBuffer) (items : List Located) : Prop where
  inBuffer : ∀ e ∈ items, e.stop ≤ tb.data.length
  inPartition : ∀ e ∈ items,
    tb.partitionStart e.partition ≤ e.start ∧ e.stop ≤ tb.partitionEnd e.partition
  disjoint : items.Pairwise fun e e' => e.stop ≤ e'.start ∨ e'.stop ≤ e.start

/-- In no partition does the first entry that crosses the end of the partition still end within
the size that is given for the partition. -/
def Contained (tb : TraceBuffer) : Prop :=
  ∀ seg ∈ tb.populated,
    seg.stop < entryEnd tb.data (crossing tb.data (tb.partitionEnd seg.partition) seg.start)

variable {tb : TraceBuffer} {seg : Segment} {e : Located}

theorem stop_le_length (h : seg ∈ tb.populated) : seg.stop ≤ tb.data.length := by
  obtain ⟨rfl, -⟩ | ⟨i, -, -, -, rfl⟩ := mem_populated h <;> exact Nat.min_le_right ..

theorem partitionStart_le_start (h : seg ∈ tb.populated) :
    tb.partitionStart seg.partition ≤ seg.start := by
  obtain ⟨rfl, -⟩ | ⟨i, hpos, -, -, rfl⟩ := mem_populated h
  · exact (if_pos rfl).le
  · rw [partitionStart, if_neg (Nat.ne_of_gt hpos)]
    exact Nat.le_add_right ..

/-- A partition after another one starts beyond the end of that one. -/
theorem partitionEnd_le_start {seg' : Segment} (h' : seg' ∈ tb.populated)
    (hlt : seg.partition < seg'.partition) :
    tb.partitionEnd seg.partition ≤ tb.partitionStart seg'.partition := by
  obtain ⟨rfl, -⟩ | ⟨i, hpos, hcount, -, rfl⟩ := mem_populated h'
  · exact absurd hlt (Nat.not_lt_zero _)
  · rw [partitionEnd, if_pos (by omega), partitionStart,
      if_neg (Nat.ne_of_gt hpos)]
    exact Nat.mul_le_mul_right _ hlt

/-- An entry of a segment comes from a place in its walk. -/
theorem mem_items (hseg : seg ∈ tb.populated) (he : e ∈ seg.items tb.data seg.start) :
    e.start ∈ walk tb.data seg.stop seg.start ∧ e.partition = seg.partition ∧
      e.stop = entryEnd tb.data e.start := by
  obtain ⟨o, ho, rfl⟩ := List.mem_map.1 he
  refine ⟨ho, rfl, ?_⟩
  rw [Located.stop, length_payload ((mem_walk ho).2.trans (stop_le_length hseg))]
  rfl

theorem forall_mem_decoded {p : Located → Prop} :
    (∀ e ∈ tb.decoded, p e) ↔ ∀ seg ∈ tb.populated, ∀ e ∈ seg.items tb.data seg.start, p e := by
  simp only [decoded, List.mem_flatMap]
  constructor
  · exact fun h seg hseg e he => h e ⟨seg, hseg, he⟩
  · rintro h e ⟨seg, hseg, he⟩
    exact h seg hseg e he

/-- Inside a segment the entries follow one another. -/
theorem pairwise_items (hseg : seg ∈ tb.populated) :
    (seg.items tb.data seg.start).Pairwise fun e e' => e.stop ≤ e'.start := by
  refine List.pairwise_map.2 ((pairwise_walk tb.data seg.stop seg.start).imp_of_mem ?_)
  intro o o' ho _ hle
  rw [(mem_items hseg (List.mem_map_of_mem ho)).2.2]
  exact hle

theorem contained_iff : tb.Contained ↔
    ∀ e ∈ tb.decoded, e.stop ≤ tb.partitionEnd e.partition := by
  rw [forall_mem_decoded]
  refine forall₂_congr fun seg hseg => ?_
  rw [← forall_walk_le_iff]
  constructor
  · intro h e he
    obtain ⟨ho, hpartition, hstop⟩ := mem_items hseg he
    rw [hstop, hpartition]
    exact h _ ho
  · intro h o ho
    obtain ⟨-, hpartition, hstop⟩ := mem_items hseg (List.mem_map_of_mem ho)
    rw [← hpartition, ← hstop]
    exact h _ (List.mem_map_of_mem ho)

/-- It is enough that no size reaches beyond its partition. -/
theorem contained_of_stop_le (h : ∀ seg ∈ tb.populated, seg.stop ≤ tb.partitionEnd seg.partition) :
    tb.Contained := fun seg hseg =>
  (forall_walk_le_iff ..).1 fun _ ho => (mem_walk ho).2.trans (h seg hseg)

/-- Entries that are confined to their own partitions are disjoint. -/
theorem pairwise_decoded (h : tb.Contained) :
    tb.decoded.Pairwise fun e e' => e.stop ≤ e'.start ∨ e'.stop ≤ e.start := by
  have hends := contained_iff.1 h
  rw [forall_mem_decoded] at hends
  refine List.pairwise_flatMap.2 ⟨fun seg hseg => (pairwise_items hseg).imp .inl, ?_⟩
  refine (pairwise_populated tb).imp_of_mem fun {seg seg'} hseg hseg' hlt e he e' he' => .inl ?_
  obtain ⟨-, hpartition, -⟩ := mem_items hseg he
  obtain ⟨ho', -, -⟩ := mem_items hseg' he'
  calc e.stop ≤ tb.partitionEnd seg.partition := hpartition ▸ hends seg hseg e he
    _ ≤ tb.partitionStart seg'.partition := partitionEnd_le_start hseg' hlt
    _ ≤ seg'.start := partitionStart_le_start hseg'
    _ ≤ e'.start := (mem_walk ho').1

theorem confined_decoded_iff : tb.Confined tb.decoded ↔ tb.Contained := by
  refine ⟨fun h => contained_iff.2 fun e he => (h.inPartition e he).2, fun h => ⟨?_, ?_, ?_⟩⟩
  · rw [forall_mem_decoded]
    intro seg hseg e he
    obtain ⟨ho, -, hstop⟩ := mem_items hseg he
    exact hstop ▸ (mem_walk ho).2.trans (stop_le_length hseg)
  · refine fun e he => ⟨?_, contained_iff.1 h e he⟩
    obtain ⟨seg, hseg, he⟩ := List.mem_flatMap.1 he
    obtain ⟨ho, hpartition, -⟩ := mem_items hseg he
    exact hpartition ▸ (partitionStart_le_start hseg).trans (mem_walk ho).1
  · exact pairwise_decoded h

/-! ## Main results -/

/-- The iterator over an accepted buffer ends and stays inside the buffer, and its entries are
confined to their partitions and disjoint exactly when the buffer is contained. -/
theorem yields_confined_iff {data : List UInt8} (hlen : data.length < 2 ^ 63)
    (hparse : parse data = some (.ok tb)) :
    (∃ items, tb.Yields items ∧ tb.Confined items) ↔ tb.Contained := by
  have hdata : tb.data = data := congrArg TraceBuffer.data (parse_eq_ok.1 hparse).2
  rw [← confined_decoded_iff]
  constructor
  · rintro ⟨items, hyields, hconfined⟩
    rwa [(yields_iff (hdata ▸ hlen)).1 hyields] at hconfined
  · exact fun h => ⟨_, (yields_iff (hdata ▸ hlen)).2 rfl, h⟩

/-- Three partitions of 64 bytes. The size of partition 1 and of its entry reach into
partition 2, which has an entry of its own. -/
def straddling : List UInt8 :=
  leBytes 4 magicHeader.toNat ++ leBytes 8 0 ++ leBytes 4 64 ++ leBytes 4 64 ++ leBytes 2 3 ++
    leBytes 42 0 ++
  (leBytes 4 124 ++ leBytes 8 0 ++ leBytes 4 60 ++ leBytes 48 0) ++
  (leBytes 4 20 ++ leBytes 60 0)

/-- The iterator reads partition 2 as part of the entry of partition 1. -/
theorem not_confined_straddling :
    parse straddling = some (.ok ⟨straddling, headerOf straddling⟩) ∧
    ¬∃ items, Yields ⟨straddling, headerOf straddling⟩ items ∧
      Confined ⟨straddling, headerOf straddling⟩ items := by
  refine ⟨by decide +kernel, ?_⟩
  rintro ⟨items, hyields, hconfined⟩
  rw [(yields_iff (by decide +kernel)).1 hyields, confined_decoded_iff] at hconfined
  have h := hconfined ⟨68, 188, 1⟩ (by decide +kernel)
  rw [crossing, if_neg (by decide +kernel)] at h
  revert h
  decide +kernel

/-- Two partitions of 128 bytes, with one entry in each. -/
def orderly : List UInt8 :=
  leBytes 4 magicHeader.toNat ++ leBytes 8 0 ++ leBytes 4 84 ++ leBytes 4 128 ++ leBytes 2 2 ++
    leBytes 42 0 ++ (leBytes 8 1 ++ leBytes 4 4 ++ leBytes 52 0) ++
  (leBytes 4 24 ++ leBytes 8 2 ++ leBytes 4 4 ++ leBytes 112 0)

theorem yields_confined_orderly :
    ∃ items, Yields ⟨orderly, headerOf orderly⟩ items ∧
      Confined ⟨orderly, headerOf orderly⟩ items := by
  have hparse : parse orderly = some (.ok ⟨orderly, headerOf orderly⟩) := by decide +kernel
  exact (yields_confined_iff (by decide +kernel) hparse).2
    (contained_of_stop_le (by decide +kernel))

end TraceBuffer

end EtSoc.Trace

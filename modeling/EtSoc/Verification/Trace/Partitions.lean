import EtSoc.Verification.Trace.Walk
import Mathlib.Data.List.TakeWhile

/-! # Partitions

Which entries each partition of a trace buffer yields, and when they lie inside it. -/

namespace EtSoc.Trace

open Bytes

/-! ## The header -/

/-- What the standard header of a buffer says. -/
def headerOf (data : List UInt8) : Header where
  version := (.ofNat (field data 4 2), .ofNat (field data 6 2), .ofNat (field data 8 2))
  bufferType := .ofNat (field data 10 2)
  dataSize := .ofNat (field data 12 4)
  subBufferSize := .ofNat (field data 16 4)
  subBufferCount := .ofNat (field data 20 2)

/-- A header that the decoder supports. -/
structure Supported (data : List UInt8) : Prop where
  length : stdHeaderSize ≤ data.length
  magic : field data 0 4 = magicHeader.toNat
  major : field data 4 2 = versionMajor.toNat
  minor : field data 6 2 ≤ versionMinor.toNat

theorem parse_eq_ok {data : List UInt8} {tb : TraceBuffer} :
    TraceBuffer.parse data = some (.ok tb) ↔ Supported data ∧ tb = ⟨data, headerOf data⟩ := by
  unfold TraceBuffer.parse
  by_cases hlen : data.length < stdHeaderSize
  · rw [if_pos hlen]
    exact iff_of_false (by simp) fun h => absurd h.1.length (Nat.not_le.2 hlen)
  have hle : 64 ≤ data.length := Nat.not_lt.1 hlen
  rw [if_neg hlen, rdU32_eq (by omega), rdU16_eq (by omega), rdU16_eq (by omega),
    rdU16_eq (by omega), rdU16_eq (by omega), rdU32_eq (by omega), rdU32_eq (by omega),
    rdU16_eq (by omega)]
  simp only [Option.bind_eq_bind, Option.bind_some]
  have hmagic : UInt32.ofNat (field data 0 4) = magicHeader ↔ field data 0 4 = magicHeader.toNat := by
    rw [← UInt32.toNat_inj, UInt32.toNat_ofNat_of_lt' (field_lt data 0 4)]
  have hmajor : UInt16.ofNat (field data 4 2) = versionMajor ↔
      field data 4 2 = versionMajor.toNat := by
    rw [← UInt16.toNat_inj, UInt16.toNat_ofNat_of_lt' (field_lt data 4 2)]
  have hminor : UInt16.ofNat (field data 6 2) > versionMinor ↔
      ¬field data 6 2 ≤ versionMinor.toNat := by
    rw [gt_iff_lt, UInt16.lt_iff_toNat_lt, UInt16.toNat_ofNat_of_lt' (field_lt data 6 2),
      Nat.not_le]
  by_cases h : field data 0 4 = magicHeader.toNat
  · rw [if_neg (not_not_intro (hmagic.2 h))]
    by_cases hversion : field data 4 2 = versionMajor.toNat ∧ field data 6 2 ≤ versionMinor.toNat
    · rw [if_neg (by rw [Ne, hmajor, hminor, ← not_and_or]; exact not_not_intro hversion)]
      simp only [Option.some.injEq, Except.ok.injEq, eq_comm]
      exact (and_iff_right ⟨hle, h, hversion.1, hversion.2⟩).symm
    · rw [if_pos (by rw [Ne, hmajor, hminor, ← not_and_or]; exact hversion)]
      exact iff_of_false (by simp) fun h => hversion ⟨h.1.major, h.1.minor⟩
  · rw [if_pos (mt hmagic.1 h)]
    exact iff_of_false (by simp) fun h' => h h'.1.magic

/-! ## Segments -/

/-- The segment of partition `i`, if it is populated. -/
def subSegment (data : List UInt8) (stride i : ℕ) : Option Segment :=
  if sizeHeaderSize < field data (i * stride) 4 then
    some ⟨i * stride + sizeHeaderSize, min (i * stride + field data (i * stride) 4) data.length, i⟩
  else
    none

theorem subSegments_eq {data : List UInt8} {stride : ℕ} (hlen : data.length < 2 ^ 63)
    (hstride : stride < 2 ^ 32) (indices : List ℕ) (hindices : ∀ i ∈ indices, i < 2 ^ 16) :
    subSegments data stride indices = some
      ((indices.takeWhile fun i => i * stride + sizeHeaderSize ≤ data.length).filterMap
        (subSegment data stride)) := by
  induction indices with
  | nil => rfl
  | cons i indices ih =>
    have hi := hindices i List.mem_cons_self
    have hbase : i * stride < 2 ^ 48 :=
      (Nat.mul_lt_mul'' hi hstride).trans_le (by norm_num)
    have ih := ih fun j hj => hindices j (List.mem_cons_of_mem _ hj)
    rw [subSegments, if_neg (by omega), saturatingAdd_eq (by simp only [sizeHeaderSize]; omega)]
    by_cases hin : i * stride + sizeHeaderSize ≤ data.length
    · rw [if_neg (by omega), rdU32_eq (by simpa only [sizeHeaderSize] using hin),
        List.takeWhile_cons_of_pos (by simpa using hin)]
      have hsize := field_lt data (i * stride) 4
      simp only [Option.bind_eq_bind, Option.bind_some, toNat_field, ih]
      rw [add_eq (by simp only [sizeHeaderSize]; omega), saturatingAdd_eq (by omega)]
      by_cases hpop : sizeHeaderSize < field data (i * stride) 4
      · rw [if_pos hpop, List.filterMap_cons_some (by rw [subSegment, if_pos hpop])]
        rfl
      · rw [if_neg hpop, List.filterMap_cons_none (by rw [subSegment, if_neg hpop])]
    · rw [if_pos (by omega), List.takeWhile_cons_of_neg (by simpa using hin)]
      rfl

namespace TraceBuffer

def stride (tb : TraceBuffer) : ℕ := tb.header.subBufferSize.toNat

def count (tb : TraceBuffer) : ℕ := tb.header.subBufferCount.toNat

/-- The end of the entries of partition 0. -/
def dataEnd (tb : TraceBuffer) : ℕ := min tb.header.dataSize.toNat tb.data.length

/-- The segment of partition 0, if it is populated. -/
def firstSegment (tb : TraceBuffer) : List Segment :=
  if stdHeaderSize < tb.dataEnd then [⟨stdHeaderSize, tb.dataEnd, 0⟩] else []

/-- The partitions from 1 on whose size headers are in the buffer. -/
def subPartitions (tb : TraceBuffer) : List ℕ :=
  if 1 < tb.count ∧ sizeHeaderSize ≤ tb.stride then
    (List.range' 1 (tb.count - 1)).takeWhile fun i => i * tb.stride + sizeHeaderSize ≤ tb.data.length
  else
    []

/-- The segments of all populated partitions. -/
def populated (tb : TraceBuffer) : List Segment :=
  tb.firstSegment ++ tb.subPartitions.filterMap (subSegment tb.data tb.stride)

theorem segments_eq {tb : TraceBuffer} (hlen : tb.data.length < 2 ^ 63) :
    tb.segments = some tb.populated := by
  have hcount : tb.count < 2 ^ 16 := tb.header.subBufferCount.toNat_lt
  have hindices : ∀ i ∈ List.range' 1 (tb.count - 1), i < 2 ^ 16 := by
    intro i hi
    rw [List.mem_range'_1] at hi
    omega
  have hsub := subSegments_eq hlen tb.header.subBufferSize.toNat_lt _ hindices
  change (if 1 < tb.count ∧ sizeHeaderSize ≤ tb.stride then
      (subSegments tb.data tb.stride (List.range' 1 (tb.count - 1))).bind fun rest =>
        some (tb.firstSegment ++ rest)
    else some tb.firstSegment) = _
  unfold populated subPartitions
  by_cases h : 1 < tb.count ∧ sizeHeaderSize ≤ tb.stride
  · rw [if_pos h, if_pos h, show subSegments tb.data tb.stride _ = _ from hsub]
    rfl
  · rw [if_neg h, if_neg h, List.filterMap_nil, List.append_nil]

theorem mem_takeWhile_range' {p : ℕ → Bool} (hp : ∀ i j, i ≤ j → p j = true → p i = true)
    (start len i : ℕ) :
    i ∈ (List.range' start len).takeWhile p ↔ i ∈ List.range' start len ∧ p i = true := by
  induction len generalizing start with
  | zero => simp
  | succ len ih =>
    rw [List.range'_succ]
    by_cases h : p start = true
    · rw [List.takeWhile_cons_of_pos h, List.mem_cons, List.mem_cons, ih, or_and_right]
      exact or_congr_left ⟨fun hi => ⟨hi, hi ▸ h⟩, fun hi => hi.1⟩
    · rw [List.takeWhile_cons_of_neg h]
      refine iff_of_false (by simp) fun ⟨hi, hpi⟩ => h (hp start i ?_ hpi)
      rw [List.mem_cons, List.mem_range'_1] at hi
      omega

theorem mem_subPartitions {tb : TraceBuffer} {i : ℕ} : i ∈ tb.subPartitions ↔
    1 ≤ i ∧ i < tb.count ∧ sizeHeaderSize ≤ tb.stride ∧
      i * tb.stride + sizeHeaderSize ≤ tb.data.length := by
  unfold subPartitions
  by_cases h : 1 < tb.count ∧ sizeHeaderSize ≤ tb.stride
  · rw [if_pos h, mem_takeWhile_range' (fun i j hij hj => ?_), List.mem_range'_1, decide_eq_true_iff]
    · obtain ⟨hcount, hstride⟩ := h
      constructor
      · rintro ⟨⟨hpos, hlt⟩, hin⟩
        exact ⟨hpos, by omega, hstride, hin⟩
      · rintro ⟨hpos, hlt, -, hin⟩
        exact ⟨⟨hpos, by omega⟩, hin⟩
    · rw [decide_eq_true_iff] at hj ⊢
      exact (Nat.add_le_add_right (Nat.mul_le_mul_right _ hij) _).trans hj
  · rw [if_neg h]
    exact iff_of_false (by simp) fun hi => h ⟨by omega, hi.2.2.1⟩

theorem pairwise_subPartitions {tb : TraceBuffer} : tb.subPartitions.Pairwise (· < ·) := by
  unfold subPartitions
  split
  · exact (List.pairwise_lt_range' 1).sublist (List.takeWhile_sublist _)
  · exact .nil

theorem mem_populated {tb : TraceBuffer} {seg : Segment} (h : seg ∈ tb.populated) :
    (seg = ⟨stdHeaderSize, tb.dataEnd, 0⟩ ∧ stdHeaderSize < tb.dataEnd) ∨
    ∃ i, 1 ≤ i ∧ i < tb.count ∧ i * tb.stride + sizeHeaderSize ≤ tb.data.length ∧
      seg = ⟨i * tb.stride + sizeHeaderSize,
        min (i * tb.stride + field tb.data (i * tb.stride) 4) tb.data.length, i⟩ := by
  rcases List.mem_append.1 h with h | h
  · unfold firstSegment at h
    split at h
    · exact .inl ⟨List.mem_singleton.1 h, ‹_›⟩
    · simp at h
  · obtain ⟨i, hi, hseg⟩ := List.mem_filterMap.1 h
    obtain ⟨hpos, hcount, -, hin⟩ := mem_subPartitions.1 hi
    unfold subSegment at hseg
    split at hseg
    · exact .inr ⟨i, hpos, hcount, hin, (Option.some.inj hseg).symm⟩
    · simp at hseg

/-- The partitions come in order. -/
theorem pairwise_populated (tb : TraceBuffer) :
    tb.populated.Pairwise fun seg seg' => seg.partition < seg'.partition := by
  have hpartition : ∀ i seg, subSegment tb.data tb.stride i = some seg → seg.partition = i := by
    intro i seg hseg
    unfold subSegment at hseg
    split at hseg
    · rw [← Option.some.inj hseg]
    · simp at hseg
  refine List.pairwise_append.2 ⟨?_, ?_, fun seg hseg seg' hseg' => ?_⟩
  · unfold firstSegment
    split <;> simp
  · refine List.Pairwise.filterMap _ (fun i i' hlt seg hseg seg' hseg' => ?_) pairwise_subPartitions
    rw [hpartition i seg hseg, hpartition i' seg' hseg']
    exact hlt
  · obtain ⟨i, hi, hseg'⟩ := List.mem_filterMap.1 hseg'
    rw [hpartition i seg' hseg']
    unfold firstSegment at hseg
    split at hseg
    · rw [List.mem_singleton.1 hseg]
      exact (mem_subPartitions.1 hi).1
    · simp at hseg

/-! ## Decoding -/

/-- All entries of a buffer. -/
def decoded (tb : TraceBuffer) : List Located :=
  tb.populated.flatMap fun seg => seg.items tb.data seg.start

/-- The iterator over a buffer neither panics nor goes on for ever, and yields `items`. -/
def Yields (tb : TraceBuffer) (items : List Located) : Prop :=
  ∃ it n, tb.entries = some it ∧ collect n it = some items

theorem yields_iff {tb : TraceBuffer} (hlen : tb.data.length < 2 ^ 63) {items : List Located} :
    tb.Yields items ↔ items = tb.decoded := by
  have hentries : tb.entries = some ⟨tb.data, tb.populated, 0, 0, false⟩ := by
    simp [entries, segments_eq hlen]
  have hwithin : Entries.Within ⟨tb.data, tb.populated, 0, 0, false⟩ := by
    refine ⟨hlen, Nat.zero_le _, fun seg hseg => ?_, fun seg hseg => ?_, by simp⟩ <;>
      obtain ⟨rfl, h⟩ | ⟨i, -, -, hi, rfl⟩ := mem_populated hseg
    · exact h.le.trans (Nat.min_le_right ..)
    · exact hi
    · exact Nat.min_le_right ..
    · exact Nat.min_le_right ..
  have hremaining : Entries.remaining ⟨tb.data, tb.populated, 0, 0, false⟩ = tb.decoded := by
    simp only [Entries.remaining, List.drop_zero, decoded]
    cases tb.populated <;> rfl
  constructor
  · rintro ⟨it, n, hit, hcollect⟩
    obtain rfl := Option.some.inj (hit.symm.trans hentries)
    rw [collect_sound n hwithin hcollect, hremaining]
  · rintro rfl
    exact ⟨_, _, hentries, hremaining ▸ collect_eq _ hwithin (Nat.lt_succ_self _)⟩

end TraceBuffer

end EtSoc.Trace

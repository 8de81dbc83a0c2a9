import EtSoc.Verification.Trace.Encoding

/-! # Round trip

A buffer that is laid out as prescribed yields exactly its entries, and a corrupt partition
hides no entry of another one. -/

namespace EtSoc.Trace

open Bytes

/-! ## Partitions in place -/

/-- The size of what precedes the entries of partition `i`. -/
def headSize (i : ℕ) : ℕ := if i = 0 then stdHeaderSize else sizeHeaderSize

namespace TraceBuffer

/-- The size that is given for partition `i`, with what precedes its entries. -/
def size (tb : TraceBuffer) (i : ℕ) : ℕ :=
  if i = 0 then tb.header.dataSize.toNat else field tb.data (i * tb.stride) 4

/-- The bytes of the entries of partition `i`, which may be none. -/
def body (tb : TraceBuffer) (i : ℕ) : Segment where
  start := i * tb.stride + headSize i
  stop := min (i * tb.stride + tb.size i) tb.data.length
  partition := i

def bodyItems (tb : TraceBuffer) (i : ℕ) : List Located :=
  (tb.body i).items tb.data (tb.body i).start

variable {tb : TraceBuffer}

theorem items_nil {data : List UInt8} {seg : Segment} {off : ℕ} (h : seg.stop ≤ off) :
    seg.items data off = [] := by
  have hend := lt_entryEnd data off
  rw [Segment.items, walk, if_neg (by omega), List.map_nil]

theorem firstSegment_items :
    tb.firstSegment.flatMap (fun seg => seg.items tb.data seg.start) = tb.bodyItems 0 := by
  have hbody : tb.body 0 = ⟨stdHeaderSize, tb.dataEnd, 0⟩ := by
    simp [body, headSize, size, dataEnd]
  rw [bodyItems, hbody]
  unfold firstSegment
  split
  · simp
  · exact (items_nil (Nat.not_lt.1 ‹_›)).symm

theorem subSegment_items {i : ℕ} (hi : 1 ≤ i) :
    (subSegment tb.data tb.stride i).toList.flatMap (fun seg => seg.items tb.data seg.start) =
      tb.bodyItems i := by
  have hbody : tb.body i = ⟨i * tb.stride + sizeHeaderSize,
      min (i * tb.stride + field tb.data (i * tb.stride) 4) tb.data.length, i⟩ := by
    simp [body, headSize, size, Nat.ne_of_gt hi]
  rw [bodyItems, hbody]
  unfold subSegment
  split
  · simp
  · refine (items_nil ((Nat.min_le_left ..).trans ?_)).symm
    simp only
    omega

theorem flatMap_filterMap {α β γ : Type} (f : α → Option β) (g : β → List γ) (xs : List α) :
    (xs.filterMap f).flatMap g = xs.flatMap fun x => (f x).toList.flatMap g := by
  induction xs with
  | nil => rfl
  | cons x xs ih =>
    rw [List.flatMap_cons, List.filterMap_cons, ← ih]
    cases f x <;> simp

/-- A buffer yields the entries of partition 0 and of those with a size header. -/
theorem decoded_eq_flatMap : tb.decoded = (0 :: tb.subPartitions).flatMap tb.bodyItems := by
  rw [decoded, populated, List.flatMap_append, firstSegment_items, flatMap_filterMap,
    List.flatMap_cons]
  congr 1
  refine List.flatMap_congr fun i hi => subSegment_items ?_
  exact (mem_subPartitions.1 hi).1

theorem nodup_partitions : (0 :: tb.subPartitions).Nodup := by
  refine List.nodup_cons.2 ⟨fun h => absurd (mem_subPartitions.1 h).1 (by omega), ?_⟩
  exact pairwise_subPartitions.imp Nat.ne_of_lt

/-- Where the buffer holds all size headers, it yields the entries of all partitions. -/
theorem decoded_eq (hstride : 1 < tb.count → sizeHeaderSize ≤ tb.stride)
    (hin : ∀ i < tb.count, i * tb.stride + headSize i ≤ tb.data.length) :
    tb.decoded = (List.range (max 1 tb.count)).flatMap tb.bodyItems := by
  have hrange : List.range (max 1 tb.count) = 0 :: List.range' 1 (tb.count - 1) := by
    rw [List.range_eq_range', show max 1 tb.count = tb.count - 1 + 1 by omega, List.range'_succ]
  have hsub : tb.subPartitions = List.range' 1 (tb.count - 1) := by
    unfold subPartitions
    by_cases hcount : 1 < tb.count
    · rw [if_pos ⟨hcount, hstride hcount⟩, List.takeWhile_eq_self_iff]
      intro i hi
      obtain ⟨hpos, hlt⟩ := List.mem_range'_1.1 hi
      have hin := hin i (by omega)
      rw [headSize, if_neg (by omega)] at hin
      exact decide_eq_true hin
    · rw [if_neg (fun h => hcount h.1), show tb.count - 1 = 0 by omega, List.range'_zero]
  rw [decoded_eq_flatMap, hsub, hrange]

theorem partition_of_mem_bodyItems {i : ℕ} {e : Located} (he : e ∈ tb.bodyItems i) :
    e.partition = i := by
  obtain ⟨o, -, rfl⟩ := List.mem_map.1 he
  rfl

/-- What a buffer yields from one of its partitions. -/
theorem filter_bodyItems {indices : List ℕ} (hnodup : indices.Nodup) (i : ℕ) :
    (indices.flatMap tb.bodyItems).filter (·.partition = i) =
      if i ∈ indices then tb.bodyItems i else [] := by
  induction indices with
  | nil => rfl
  | cons j indices ih =>
    obtain ⟨hj, hnodup⟩ := List.nodup_cons.1 hnodup
    rw [List.flatMap_cons, List.filter_append, ih hnodup]
    by_cases hij : i = j
    · subst hij
      rw [if_neg hj, if_pos List.mem_cons_self, List.append_nil, List.filter_eq_self]
      exact fun e he => decide_eq_true (partition_of_mem_bodyItems he)
    · have hnone : (tb.bodyItems j).filter (·.partition = i) = [] := by
        refine List.filter_eq_nil_iff.2 fun e he => ?_
        rw [decide_eq_true_iff, partition_of_mem_bodyItems he]
        exact fun h => hij h.symm
      rw [hnone, List.nil_append]
      simp only [List.mem_cons, hij, false_or]

end TraceBuffer

/-! ## Layout -/

def bufferOf (data : List UInt8) : TraceBuffer := ⟨data, headerOf data⟩

/-- The buffer `data` holds the entries `parts`, partition after partition. The size of a
partition may count some bytes after its entries, but not enough for an entry; the size of a
partition without entries may also be less than what precedes them. -/
structure LaidOut (data : List UInt8) (parts : List (List Entry)) : Prop where
  supported : Supported data
  /-- There is a partition 0 even where none is counted. -/
  count : parts.length = max 1 (bufferOf data).count
  entries : ∀ i (hi : i < parts.length),
    encode parts[i] <+: data.drop ((bufferOf data).body i).start
  inBuffer : ∀ i < parts.length, ((bufferOf data).body i).start ≤ data.length
  size : ∀ i (hi : i < parts.length),
    (parts[i] = [] ∨ headSize i + (encode parts[i]).length ≤ (bufferOf data).size i) ∧
      (bufferOf data).size i < headSize i + (encode parts[i]).length + entryHeaderSize
  fits : 1 < (bufferOf data).count → ∀ i < parts.length,
    headSize i ≤ (bufferOf data).stride ∧ (bufferOf data).size i ≤ (bufferOf data).stride

/-- The entries of all partitions, each with the number of its partition. -/
def numbered (parts : List (List Entry)) : List (ℕ × Entry) :=
  (parts.mapIdx fun i entries => entries.map fun e => (i, e)).flatten

/-- The iterator over the buffer `data` yields `items`. -/
def Decodes (data : List UInt8) (items : List Located) : Prop :=
  ∃ tb, TraceBuffer.parse data = some (.ok tb) ∧ tb.Yields items

theorem decodes_decoded {data : List UInt8} (hlen : data.length < 2 ^ 63)
    (hsupported : Supported data) : Decodes data (bufferOf data).decoded :=
  ⟨bufferOf data, parse_eq_ok.2 ⟨hsupported, rfl⟩, (TraceBuffer.yields_iff hlen).2 rfl⟩

theorem size_lt (tb : TraceBuffer) (i : ℕ) : tb.size i < 2 ^ 32 := by
  unfold TraceBuffer.size
  split
  · exact tb.header.dataSize.toNat_lt
  · exact field_lt ..

/-- Entries that lie where a partition starts, and within its size, are the first ones that are
yielded from it. -/
theorem bodyItems_encode {tb : TraceBuffer} {i : ℕ} {entries : List Entry}
    (h : encode entries <+: tb.data.drop (tb.body i).start)
    (hsize : entries = [] ∨ headSize i + (encode entries).length ≤ tb.size i) :
    (tb.bodyItems i).map (·.entry) = entries ++
      entriesFrom tb.data (tb.body i).stop ((tb.body i).start + (encode entries).length) := by
  have hitems : (tb.bodyItems i).map (·.entry) =
      entriesFrom tb.data (tb.body i).stop (tb.body i).start := by
    rw [TraceBuffer.bodyItems, Segment.items, List.map_map]
    rfl
  have hlt := size_lt tb i
  rw [hitems]
  obtain rfl | hsize := hsize
  · rfl
  refine entriesFrom_encode entries h (by omega) ?_
  obtain rfl | hcons := eq_or_ne entries []
  · exact .inl rfl
  obtain ⟨e, entries, rfl⟩ := List.exists_cons_of_ne_nil hcons
  have hle := h.length_le
  have hpos := length_encodeEntry e
  rw [encode_cons, List.length_append, List.length_drop] at hle
  rw [encode_cons, List.length_append] at hsize ⊢
  simp only [entryHeaderSize] at hpos
  simp only [TraceBuffer.body] at hle ⊢
  right
  omega

namespace LaidOut
variable {data data' : List UInt8} {parts : List (List Entry)} {i : ℕ}

theorem decoded_eq (h : LaidOut data parts) :
    (bufferOf data).decoded = (List.range parts.length).flatMap (bufferOf data).bodyItems := by
  rw [h.count]
  refine TraceBuffer.decoded_eq (fun hcount => ?_) fun i hi => h.inBuffer i (by rw [h.count]; omega)
  exact (h.fits hcount 1 (by rw [h.count]; omega)).1

theorem bodyItems_eq (h : LaidOut data parts) (hi : i < parts.length) :
    ((bufferOf data).bodyItems i).map (·.entry) = parts[i] := by
  rw [bodyItems_encode (h.entries i hi) (h.size i hi).1, entriesFrom_nil, List.append_nil]
  have hsize := (h.size i hi).2
  simp only [TraceBuffer.body, entryEnd]
  omega

theorem numbered_decoded (h : LaidOut data parts) :
    (bufferOf data).decoded.map (fun e => (e.partition, e.entry)) = numbered parts := by
  rw [h.decoded_eq, List.map_flatMap, List.flatMap_def, numbered]
  congr 1
  refine List.ext_getElem (by simp) fun i hi _ => ?_
  simp only [List.length_map, List.length_range] at hi
  rw [List.getElem_map, List.getElem_range, List.getElem_mapIdx, ← h.bodyItems_eq hi, List.map_map]
  refine List.map_congr_left fun e he => ?_
  rw [Function.comp_apply, TraceBuffer.partition_of_mem_bodyItems he]

end LaidOut

/-! ## Corruption -/

/-- The buffer `data'` is `data` with other bytes in partition `i`. -/
structure Replaced (data : List UInt8) (i : ℕ) (data' : List UInt8) : Prop where
  length : data'.length = data.length
  before : Agree data data' 0 (i * (bufferOf data).stride)
  after : ∀ stop, Agree data data' ((i + 1) * (bufferOf data).stride) stop

/-- Where the entries of the partition at `base` end. -/
def partitionStop (data : List UInt8) (base : ℕ) : ℕ := min (base + field data base 4) data.length

/-- The partition at `base` starts with `entries`, which end within its size. -/
structure StartsWith (data : List UInt8) (base : ℕ) (entries : List Entry) : Prop where
  placed : encode entries <+: data.drop (base + sizeHeaderSize)
  size : sizeHeaderSize + (encode entries).length ≤ field data base 4

/-- What follows `entries` in the partition at `base` is no entry: it does not end within the
partition and the buffer. -/
def Malformed (data : List UInt8) (base : ℕ) (entries : List Entry) : Prop :=
  partitionStop data base < entryEnd data (base + sizeHeaderSize + (encode entries).length)

namespace LaidOut
variable {data data' : List UInt8} {parts : List (List Entry)} {i : ℕ}

theorem stdHeaderSize_le (h : LaidOut data parts) (hi : 1 ≤ i) (hlt : i < parts.length) :
    stdHeaderSize ≤ i * (bufferOf data).stride := by
  have hcount := h.count
  have hfits := (h.fits (by omega) 0 (by omega)).1
  exact hfits.trans (Nat.le_mul_of_pos_left _ hi)

theorem field_header_eq (h : LaidOut data parts) (hi : 1 ≤ i) (hlt : i < parts.length)
    (hdata : Replaced data i data') (off width : ℕ) (hend : off + width ≤ stdHeaderSize) :
    field data' off width = field data off width :=
  (hdata.before.mono (Nat.zero_le _) (hend.trans (h.stdHeaderSize_le hi hlt))).field_eq

theorem headerOf_eq (h : LaidOut data parts) (hi : 1 ≤ i) (hlt : i < parts.length)
    (hdata : Replaced data i data') : headerOf data' = headerOf data := by
  have hfield := h.field_header_eq hi hlt hdata
  simp only [stdHeaderSize] at hfield
  simp only [headerOf]
  rw [hfield 4 2 (by omega), hfield 6 2 (by omega), hfield 8 2 (by omega), hfield 10 2 (by omega),
    hfield 12 4 (by omega), hfield 16 4 (by omega), hfield 20 2 (by omega)]

theorem supported_replaced (h : LaidOut data parts) (hi : 1 ≤ i) (hlt : i < parts.length)
    (hdata : Replaced data i data') : Supported data' := by
  have hfield := h.field_header_eq hi hlt hdata
  simp only [stdHeaderSize] at hfield
  refine ⟨h.supported.length.trans_eq hdata.length.symm, ?_, ?_, ?_⟩
  · exact (hfield 0 4 (by omega)).trans h.supported.magic
  · exact (hfield 4 2 (by omega)).trans h.supported.major
  · exact (hfield 6 2 (by omega)).trans_le h.supported.minor

/-- The other partitions yield what they yielded. -/
theorem bodyItems_replaced (h : LaidOut data parts) (hi : 1 ≤ i) (hlt : i < parts.length)
    (hdata : Replaced data i data') {j : ℕ} (hj : j < parts.length) (hne : j ≠ i) :
    (bufferOf data').bodyItems j = (bufferOf data).bodyItems j := by
  have hcount := h.count
  obtain ⟨hhead, hsize⟩ := h.fits (by omega) j hj
  have hagree : Agree data data' (j * (bufferOf data).stride) ((j + 1) * (bufferOf data).stride) := by
    rcases Nat.lt_or_gt_of_ne hne with hji | hij
    · exact hdata.before.mono (Nat.zero_le _) (Nat.mul_le_mul_right _ hji)
    · exact (hdata.after _).mono (Nat.mul_le_mul_right _ hij) le_rfl
  rw [Nat.succ_mul] at hagree
  have htb : bufferOf data' = ⟨data', headerOf data⟩ := by
    rw [bufferOf, h.headerOf_eq hi hlt hdata]
  have hsize' : (bufferOf data').size j = (bufferOf data).size j := by
    rw [htb]
    unfold TraceBuffer.size
    split
    · rfl
    · rw [headSize, if_neg ‹_›, sizeHeaderSize] at hhead
      exact (hagree.mono le_rfl (Nat.add_le_add_left hhead _)).field_eq
  have hbody : (bufferOf data').body j = (bufferOf data).body j := by
    rw [TraceBuffer.body, TraceBuffer.body, hsize', htb]
    simp only [bufferOf, TraceBuffer.stride, hdata.length]
  rw [TraceBuffer.bodyItems, TraceBuffer.bodyItems, hbody]
  refine (hagree.mono (Nat.le_add_right ..) ?_).items_eq
  exact (Nat.min_le_left ..).trans (Nat.add_le_add_left hsize _)

theorem decoded_replaced (h : LaidOut data parts) (hi : 1 ≤ i) (hlt : i < parts.length)
    (hdata : Replaced data i data') :
    (bufferOf data').decoded = (List.range parts.length).flatMap (bufferOf data').bodyItems := by
  have htb : bufferOf data' = ⟨data', headerOf data⟩ := by
    rw [bufferOf, h.headerOf_eq hi hlt hdata]
  have hcount : max 1 (bufferOf data').count = parts.length := by
    rw [h.count, htb]
    rfl
  rw [← hcount, htb]
  refine TraceBuffer.decoded_eq (fun hcount => ?_) fun j hj => ?_
  · exact (h.fits hcount 1 (by omega)).1
  · exact (h.inBuffer j (by rw [h.count]; exact lt_max_of_lt_right hj)).trans_eq hdata.length.symm

/-- A partition with other bytes yields the valid entries that it starts with. -/
theorem bodyItems_replaced_self (h : LaidOut data parts) (hi : 1 ≤ i) (hlt : i < parts.length)
    (hdata : Replaced data i data') {entries : List Entry}
    (hentries : StartsWith data' (i * (bufferOf data).stride) entries) :
    ((bufferOf data').bodyItems i).map (·.entry) = entries ++
      entriesFrom data' (partitionStop data' (i * (bufferOf data).stride))
        (i * (bufferOf data).stride + sizeHeaderSize + (encode entries).length) := by
  have htb : bufferOf data' = ⟨data', headerOf data⟩ := by
    rw [bufferOf, h.headerOf_eq hi hlt hdata]
  have hpos : i ≠ 0 := Nat.ne_of_gt hi
  have hbody : (bufferOf data').body i = ⟨i * (bufferOf data).stride + sizeHeaderSize,
      partitionStop data' (i * (bufferOf data).stride), i⟩ := by
    rw [TraceBuffer.body, TraceBuffer.size, headSize, if_neg hpos, if_neg hpos, htb]
    rfl
  have hsize : (bufferOf data').size i = field data' (i * (bufferOf data).stride) 4 := by
    rw [TraceBuffer.size, if_neg hpos, htb]
    rfl
  have hprefix : encode entries <+: (bufferOf data').data.drop ((bufferOf data').body i).start := by
    rw [hbody]
    exact hentries.placed
  rw [bodyItems_encode hprefix (.inr ?_), hbody]
  · rfl
  · rw [hsize, headSize, if_neg hpos]
    exact hentries.size

end LaidOut

/-! ## Main results -/

variable {data : List UInt8} {parts : List (List Entry)}

/-- The iterator yields all entries of a buffer in order. Whatever bytes replace a partition
after the first one, the entries of the others are yielded as before, and so are the valid
entries that the replaced partition starts with. -/
theorem decodes_laidOut (hlen : data.length < 2 ^ 63) (h : LaidOut data parts) :
    ∃ items, Decodes data items ∧ items.map (fun e => (e.partition, e.entry)) = numbered parts ∧
      ∀ i data', 1 ≤ i → i < parts.length → Replaced data i data' →
        ∃ items', Decodes data' items' ∧
          items'.filter (·.partition ≠ i) = items.filter (·.partition ≠ i) ∧
          ∀ entries, StartsWith data' (i * (bufferOf data).stride) entries →
            entries <+: (items'.filter (·.partition = i)).map (·.entry) ∧
            (Malformed data' (i * (bufferOf data).stride) entries →
              (items'.filter (·.partition = i)).map (·.entry) = entries) := by
  refine ⟨_, decodes_decoded hlen h.supported, h.numbered_decoded, fun i data' hi hlt hdata => ?_⟩
  refine ⟨_, decodes_decoded (hdata.length ▸ hlen) (h.supported_replaced hi hlt hdata), ?_,
    fun entries hentries => ?_⟩
  · rw [h.decoded_replaced hi hlt hdata, h.decoded_eq, List.filter_flatMap, List.filter_flatMap]
    refine List.flatMap_congr fun j hj => ?_
    by_cases hne : j = i
    · have hnone : ∀ tb : TraceBuffer, (tb.bodyItems j).filter (·.partition ≠ i) = [] := fun tb =>
        List.filter_eq_nil_iff.2 fun e he => by
          rw [decide_eq_true_iff, not_not, TraceBuffer.partition_of_mem_bodyItems he, hne]
      rw [hnone, hnone]
    · rw [h.bodyItems_replaced hi hlt hdata (List.mem_range.1 hj) hne]
  · rw [h.decoded_replaced hi hlt hdata, TraceBuffer.filter_bodyItems List.nodup_range,
      if_pos (List.mem_range.2 hlt), h.bodyItems_replaced_self hi hlt hdata hentries]
    refine ⟨List.prefix_append .., fun hmalformed => ?_⟩
    rw [entriesFrom_nil hmalformed, List.append_nil]

theorem decodes_orderly :
    ∃ items, Decodes TraceBuffer.orderly items ∧
      items.map (fun e => (e.partition, e.entry)) =
        [(0, ⟨1, 0, 0, [0, 0, 0, 0]⟩), (1, ⟨2, 0, 0, [0, 0, 0, 0]⟩)] := by
  have h : LaidOut TraceBuffer.orderly
      [[⟨1, 0, 0, [0, 0, 0, 0]⟩], [⟨2, 0, 0, [0, 0, 0, 0]⟩]] := by
    refine ⟨⟨?_, ?_, ?_, ?_⟩, ?_, ?_, ?_, ?_, fun _ => ?_⟩ <;> decide +kernel
  obtain ⟨items, hdecodes, hitems, -⟩ := decodes_laidOut (by decide +kernel) h
  exact ⟨items, hdecodes, hitems⟩

end EtSoc.Trace

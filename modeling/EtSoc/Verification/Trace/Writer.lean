import EtSoc.Model.TraceWriter
import EtSoc.Library.PowersOfTwo
import EtSoc.Verification.Trace.RoundTrip

/-! # The writer and the decoder

The host decodes what a hart has written. -/

namespace EtSoc.TraceWriter

open Bytes ByteMemory Trace

/-! ## Entries -/

/-- The length of the payload of a line. -/
def strLen (text : List UInt8) : ℕ := min (align8 (text.length + 1)) traceStringMax

def entryLen (text : List UInt8) : ℕ := entryHeaderSize + strLen text

def payload (text : List UInt8) : List UInt8 :=
  (List.range (strLen text)).map (payloadByte text (strLen text))

/-- The entry that a call writes. -/
def Call.entry (hid : UInt32) (call : Call) : Entry where
  cycle := call.timestamp
  hartId := hid.toUInt16
  rawType := traceTypeString
  payload := payload call.text

/-- A line as the decoder gives it: up to its first NUL, and no longer than a payload with its
NUL. -/
def cut (text : List UInt8) : List UInt8 :=
  (text.take (traceStringMax - 1)).takeWhile (· ≠ 0)

section
variable {text : List UInt8}

theorem le_align8 {n : ℕ} (h : n ≤ 2 ^ 63) : n ≤ align8 n :=
  PowersOfTwo.le_alignUp (k := 3) (by omega) (by omega)

theorem length_payload (text : List UInt8) : (payload text).length = strLen text := by
  simp [payload]

/-- A payload is the text, if need be without its end, and then zeros. -/
theorem payload_eq (h : text.length < 2 ^ 63) : ∃ n, payload text =
    text.take (traceStringMax - 1) ++ List.replicate (n + 1) 0 := by
  have hle := le_align8 (n := text.length + 1) (by omega)
  have hlen : strLen text = min (align8 (text.length + 1)) 512 := rfl
  have htake : (text.take (traceStringMax - 1)).length = min 511 text.length := List.length_take
  refine ⟨strLen text - (text.take (traceStringMax - 1)).length - 1, ?_⟩
  refine List.ext_getElem ?_ fun i hi _ => ?_
  · rw [length_payload, List.length_append, List.length_replicate]
    omega
  · rw [length_payload] at hi
    simp only [payload, List.getElem_map, List.getElem_range, payloadByte]
    by_cases htext : i < (text.take (traceStringMax - 1)).length
    · rw [List.getElem_append_left htext, if_pos (by omega), List.getElem_take,
        List.getD_eq_getElem]
    · rw [List.getElem_append_right (by omega), List.getElem_replicate, if_neg (by omega)]

/-- The decoder gives the text of an entry as it was cut. -/
theorem asStr_entry (hid : UInt32) {call : Call} (h : call.text.length < 2 ^ 63) :
    (call.entry hid).asStr = some (Utf8.fromUtf8Lossy (cut call.text)) := by
  obtain ⟨n, hn⟩ := payload_eq h
  have hzero : (fun b : UInt8 => b == 0) = fun b => !decide (b ≠ 0) := by
    funext b
    by_cases hb : b = 0 <;> simp [hb]
  have hcut : (payload call.text).take ((payload call.text).findIdx (· == 0)) = cut call.text := by
    rw [hzero, ← List.takeWhile_eq_take_findIdx_not, hn, List.takeWhile_append, cut]
    split
    · rw [List.replicate_succ, List.takeWhile_cons_of_neg (by simp), List.append_nil]
      exact ((List.takeWhile_sublist _).eq_of_length ‹_›).symm
    · rfl
  have hstring : (call.entry hid).traceType = .string := rfl
  rw [Entry.asStr, if_pos hstring, decodeCstr]
  exact congrArg (fun bytes => some (Utf8.fromUtf8Lossy bytes)) hcut

end

/-! ## Stores -/

theorem TraceMemory.store_store (s : TraceMemory) (addr : UInt64) (xs ys : List UInt8) :
    (s.store addr xs).store (addr + UInt64.ofNat xs.length) ys = s.store addr (xs ++ ys) := by
  simp only [store, write_append, List.length_append, span_add, List.append_assoc]

theorem TraceMemory.foldl_store (s : TraceMemory) (addr : UInt64) (f : ℕ → UInt8) (n : ℕ) :
    (List.range n).foldl (fun s i => s.store (addr + UInt64.ofNat i) [f i]) s =
      s.store addr ((List.range n).map f) := by
  induction n with
  | zero => simp [store, write, span]
  | succ n ih =>
    rw [List.range_succ, List.foldl_append, ih, List.map_append, ← store_store]
    simp

/-- A call drops its entry, or stores the entry and moves the offset past it. -/
theorem traceStr_eq (hid : UInt32) (call : Call) (s : TraceMemory) :
    let cb := s.controlBlocks (cbIndex hid)
    traceStr hid call.timestamp call.text s =
      if cb.basePerHart = 0 ∨ cb.offsetPerHart.toNat + entryLen call.text > cb.sizePerHart.toNat then
        s
      else
        (s.store (cb.basePerHart + UInt64.ofNat cb.offsetPerHart.toNat)
          (encodeEntry (call.entry hid))).setOffset (cbIndex hid)
            (cb.offsetPerHart + UInt32.ofNat (entryLen call.text)) := by
  intro cb
  have hsize := cb.sizePerHart.toNat_lt
  have hdrop : (cb.basePerHart = 0 ∨
      min (cb.offsetPerHart.toNat + entryLen call.text) (2 ^ 64 - 1) > cb.sizePerHart.toNat) ↔
      (cb.basePerHart = 0 ∨ cb.offsetPerHart.toNat + entryLen call.text > cb.sizePerHart.toNat) :=
    or_congr_right (by omega)
  have hstores : ∀ head : UInt64,
      (List.range (strLen call.text)).foldl (fun s i =>
        s.store (head + UInt64.ofNat entryHeaderSize + UInt64.ofNat i)
          [payloadByte call.text (strLen call.text) i])
        ((((s.store head (leBytes 8 call.timestamp.toNat)).store (head + 8)
          (leBytes 4 (strLen call.text))).store (head + 12) (leBytes 2 hid.toUInt16.toNat)).store
            (head + 14) (leBytes 2 traceTypeString.toNat)) =
      s.store head (encodeEntry (call.entry hid)) := by
    intro head
    rw [TraceMemory.foldl_store, encodeEntry]
    have hlen : (call.entry hid).payload.length = strLen call.text := length_payload call.text
    rw [hlen, ← TraceMemory.store_store, ← TraceMemory.store_store, ← TraceMemory.store_store,
      ← TraceMemory.store_store]
    simp only [List.length_append, length_leBytes]
    rfl
  by_cases h : cb.basePerHart = 0 ∨
      cb.offsetPerHart.toNat + entryLen call.text > cb.sizePerHart.toNat
  · exact (if_pos (hdrop.2 h)).trans (if_pos h).symm
  · refine (if_neg (mt hdrop.1 h)).trans ?_
    rw [if_neg h, ← hstores]
    rfl

/-! ## Runs -/

/-- The calls whose entries fit in the rest of the buffer when they are made. -/
def fitting (size : ℕ) : ℕ → List Call → List Call
  | _, [] => []
  | offset, call :: calls =>
    if offset + entryLen call.text ≤ size then
      call :: fitting size (offset + entryLen call.text) calls
    else
      fitting size offset calls

/-- The trace buffer of hart `hid` at `base` holds `entries`, from `first` on. -/
structure Holds (hid : UInt32) (base : UInt64) (size first : ℕ) (entries : List Entry)
    (s : TraceMemory) : Prop where
  basePerHart : (s.controlBlocks (cbIndex hid)).basePerHart = base
  sizePerHart : (s.controlBlocks (cbIndex hid)).sizePerHart.toNat = size
  offset : (s.controlBlocks (cbIndex hid)).offsetPerHart.toNat = first + (encode entries).length
  fits : entries = [] ∨ first + (encode entries).length ≤ size
  bytes : ∀ k (hk : k < (encode entries).length),
    s.bytes (base + UInt64.ofNat (first + k)) = (encode entries)[k]

/-- Whatever has been stored between two moments is in the trace buffer. -/
def StoredWithin (base : UInt64) (size : ℕ) (s s' : TraceMemory) : Prop :=
  ∀ addr ∈ s'.stored, addr ∈ s.stored ∨ ∃ k < size, addr = base + UInt64.ofNat k

variable {hid : UInt32} {base : UInt64} {size first : ℕ} {entries : List Entry} {s : TraceMemory}

theorem length_encodeEntry_entry (hid : UInt32) (call : Call) :
    (encodeEntry (call.entry hid)).length = entryLen call.text :=
  (length_encodeEntry _).trans (congrArg (_ + ·) (length_payload call.text))

theorem encode_concat (entries : List Entry) (e : Entry) :
    encode (entries ++ [e]) = encode entries ++ encodeEntry e := by
  simp [encode]

theorem Holds.traceStr_drop (h : Holds hid base size first entries s) {call : Call}
    (hdrop : ¬first + (encode entries).length + entryLen call.text ≤ size) :
    traceStr hid call.timestamp call.text s = s := by
  refine (traceStr_eq hid call s).trans (if_pos (.inr ?_))
  rw [h.offset, h.sizePerHart]
  omega

theorem Holds.traceStr_fit (h : Holds hid base size first entries s) (hbase : base ≠ 0) {call : Call}
    (hfit : first + (encode entries).length + entryLen call.text ≤ size) :
    Holds hid base size first (entries ++ [call.entry hid])
        (traceStr hid call.timestamp call.text s) ∧
      StoredWithin base size s (traceStr hid call.timestamp call.text s) := by
  have hsize := h.sizePerHart ▸ (s.controlBlocks (cbIndex hid)).sizePerHart.toNat_lt
  have hlen := length_encodeEntry_entry hid call
  have hstep : traceStr hid call.timestamp call.text s =
      (s.store (base + UInt64.ofNat (first + (encode entries).length))
        (encodeEntry (call.entry hid))).setOffset (cbIndex hid)
          ((s.controlBlocks (cbIndex hid)).offsetPerHart + UInt32.ofNat (entryLen call.text)) := by
    rw [← h.offset, ← h.basePerHart]
    refine (traceStr_eq hid call s).trans (if_neg ?_)
    rw [h.offset, h.sizePerHart, h.basePerHart, not_or]
    exact ⟨hbase, by omega⟩
  rw [hstep]
  refine ⟨⟨?_, ?_, ?_, .inr ?_, fun k hk => ?_⟩, fun addr haddr => ?_⟩
  · simp only [TraceMemory.setOffset, TraceMemory.store, Function.update_self, h.basePerHart]
  · simp only [TraceMemory.setOffset, TraceMemory.store, Function.update_self, h.sizePerHart]
  · rw [encode_concat, List.length_append, hlen]
    simp only [TraceMemory.setOffset, Function.update_self]
    rw [UInt32.toNat_add, h.offset, UInt32.toNat_ofNat_of_lt' (Nat.lt_of_le_of_lt (by omega) hsize),
      Nat.mod_eq_of_lt (by omega), Nat.add_assoc]
  · rw [encode_concat, List.length_append, hlen, ← Nat.add_assoc]
    exact hfit
  · simp only [encode_concat, List.length_append, hlen] at hk ⊢
    simp only [TraceMemory.setOffset, TraceMemory.store]
    by_cases hold : k < (encode entries).length
    · rw [List.getElem_append_left hold, ← h.bytes k hold]
      refine write_of_ne fun j hj => ?_
      rw [hlen] at hj
      rw [← ofNat_add, Ne, add_ofNat_inj (by omega) (by omega)]
      omega
    · rw [List.getElem_append_right (Nat.not_lt.1 hold), show first + k =
        first + (encode entries).length + (k - (encode entries).length) by omega,
        ofNat_add base (first + (encode entries).length)]
      have hbytes : (encodeEntry (call.entry hid)).length ≤ 2 ^ 64 := by
        rw [hlen]
        omega
      rw [write_apply hbytes (by omega)]
  · rcases List.mem_append.1 haddr with haddr | haddr
    · exact .inl haddr
    · obtain ⟨k, hk, rfl⟩ := List.mem_map.1 haddr
      rw [List.mem_range, hlen] at hk
      exact .inr ⟨_, by omega, (ofNat_add ..).symm⟩

/-- What a run of calls leaves. -/
theorem Holds.traceStrs (hbase : base ≠ 0) (calls : List Call) :
    ∀ {entries : List Entry} {s : TraceMemory}, Holds hid base size first entries s →
      Holds hid base size first (entries ++
          (fitting size (first + (encode entries).length) calls).map (Call.entry hid))
          (traceStrs hid calls s) ∧
        StoredWithin base size s (traceStrs hid calls s) := by
  induction calls with
  | nil =>
    intro entries s h
    rw [fitting, List.map_nil, List.append_nil]
    exact ⟨h, fun _ => .inl⟩
  | cons call calls ih =>
    intro entries s h
    rw [TraceWriter.traceStrs, List.foldl_cons, fitting]
    by_cases hfit : first + (encode entries).length + entryLen call.text ≤ size
    · obtain ⟨hstep, hstored⟩ := h.traceStr_fit hbase hfit
      obtain ⟨hrun, hstored'⟩ := ih hstep
      rw [encode_concat, List.length_append, length_encodeEntry_entry, ← Nat.add_assoc,
        List.append_assoc] at hrun
      rw [if_pos hfit]
      exact ⟨hrun, fun addr haddr => (hstored' addr haddr).elim (hstored addr) .inr⟩
    · rw [if_neg hfit, h.traceStr_drop hfit]
      exact ih h

theorem mem_of_mem_fitting {calls : List Call} {offset : ℕ} {call : Call}
    (h : call ∈ fitting size offset calls) : call ∈ calls := by
  induction calls generalizing offset with
  | nil => exact h
  | cons call' calls ih =>
    rw [fitting] at h
    split at h
    · exact (List.mem_cons.1 h).elim (· ▸ List.mem_cons_self) fun h => List.mem_cons_of_mem _ (ih h)
    · exact List.mem_cons_of_mem _ (ih h)

/-! ## Main result -/

/-- The host sees, in the buffer `data`, what hart `hid` has written as partition `i`, under the
size that the firmware has published. -/
structure Published (hid : UInt32) (i : ℕ) (s : TraceMemory) (data : List UInt8) : Prop where
  supported : Supported data
  partition : i < max 1 (bufferOf data).count
  stride : 1 ≤ i →
    (bufferOf data).stride = (s.controlBlocks (cbIndex hid)).sizePerHart.toNat
  size : (bufferOf data).size i = (s.controlBlocks (cbIndex hid)).offsetPerHart.toNat
  bytes : ∀ k, headSize i ≤ k → k < (s.controlBlocks (cbIndex hid)).sizePerHart.toNat →
    data[i * (bufferOf data).stride + k]? =
      some (s.bytes ((s.controlBlocks (cbIndex hid)).basePerHart + UInt64.ofNat k))

/-- The host decodes exactly the entries that a trace buffer holds. -/
theorem Holds.filter_decoded {i : ℕ} (h : Holds hid base size (headSize i) entries s)
    {data : List UInt8} (hpublished : Published hid i s data) :
    ((bufferOf data).decoded.filter (·.partition = i)).map (·.entry) = entries := by
  have hsize : (bufferOf data).size i = headSize i + (encode entries).length :=
    hpublished.size.trans h.offset
  have hread : entries ≠ [] → ∀ k < (encode entries).length,
      data[i * (bufferOf data).stride + headSize i + k]? = (encode entries)[k]? := by
    intro hne k hk
    have hfits := h.fits.resolve_left hne
    have hbyte := hpublished.bytes (headSize i + k) (Nat.le_add_right ..)
      (h.sizePerHart ▸ (by omega : headSize i + k < size))
    rw [h.basePerHart, h.bytes k hk, ← Nat.add_assoc] at hbyte
    rw [hbyte, List.getElem?_eq_getElem hk]
  have hprefix : encode entries <+: data.drop ((bufferOf data).body i).start := by
    obtain rfl | hne := eq_or_ne entries []
    · exact List.nil_prefix
    · refine List.prefix_iff_getElem?.2 fun k hk => ?_
      rw [List.getElem?_drop, ← List.getElem?_eq_getElem hk]
      exact hread hne k hk
  have hbody : ((bufferOf data).bodyItems i).map (·.entry) = entries := by
    rw [bodyItems_encode hprefix (.inr hsize.ge), entriesFrom_nil, List.append_nil]
    have hend := lt_entryEnd data (((bufferOf data).body i).start + (encode entries).length)
    refine Nat.lt_of_le_of_lt ((Nat.min_le_left ..).trans_eq ?_) hend
    rw [hsize, ← Nat.add_assoc]
    rfl
  rw [TraceBuffer.decoded_eq_flatMap, TraceBuffer.filter_bodyItems TraceBuffer.nodup_partitions]
  split
  · exact hbody
  · obtain rfl | hne := eq_or_ne entries []
    · rfl
    -- A partition that holds an entry is one that the decoder visits.
    refine absurd ?_ ‹i ∉ _›
    obtain rfl | hpos := Nat.eq_zero_or_pos i
    · exact List.mem_cons_self
    obtain ⟨e, rest, rfl⟩ := List.exists_cons_of_ne_nil hne
    have hlen : 0 < (encode (e :: rest)).length := by
      rw [encode_cons, List.length_append, length_encodeEntry]
      simp only [Trace.entryHeaderSize]
      omega
    have hfits := h.fits.resolve_left hne
    have hin := hread hne 0 hlen
    rw [List.getElem?_eq_getElem hlen] at hin
    have hlt := (List.getElem?_eq_some_iff.1 hin).1
    have hhead : headSize i = sizeHeaderSize := if_neg (Nat.ne_of_gt hpos)
    have hcount := hpublished.partition
    refine List.mem_cons_of_mem _ (TraceBuffer.mem_subPartitions.2 ⟨hpos, by omega, ?_, ?_⟩)
    · rw [hpublished.stride hpos, h.sizePerHart]
      omega
    · change _ ≤ data.length
      omega

/-- All stores of a hart are in its trace buffer, the offset is the end of what it has written,
and the host decodes exactly the calls that fitted. -/
theorem traceStrs_decoded (hid : UInt32) (i : ℕ) (calls : List Call) (s : TraceMemory)
    (htexts : ∀ call ∈ calls, call.text.length < 2 ^ 63)
    (hbase : (s.controlBlocks (cbIndex hid)).basePerHart ≠ 0)
    (hoffset : (s.controlBlocks (cbIndex hid)).offsetPerHart.toNat = headSize i) :
    let cb := s.controlBlocks (cbIndex hid)
    let s' := traceStrs hid calls s
    let written := fitting cb.sizePerHart.toNat (headSize i) calls
    StoredWithin cb.basePerHart cb.sizePerHart.toNat s s' ∧
    (s'.controlBlocks (cbIndex hid)).offsetPerHart.toNat =
      headSize i + (written.map fun call => entryLen call.text).sum ∧
    ∀ data : List UInt8, data.length < 2 ^ 63 → Published hid i s' data →
      ∃ items, Decodes data items ∧
        (items.filter (·.partition = i)).map
            (fun e => (e.entry.cycle, e.entry.hartId, e.entry.asStr)) =
          written.map fun call =>
            (call.timestamp, hid.toUInt16, some (Utf8.fromUtf8Lossy (cut call.text))) := by
  intro cb s' written
  have hinit : Holds hid cb.basePerHart cb.sizePerHart.toNat (headSize i) [] s :=
    ⟨rfl, rfl, hoffset, .inl rfl, fun k hk => absurd hk (Nat.not_lt_zero k)⟩
  obtain ⟨hholds, hstored⟩ := hinit.traceStrs hbase calls
  have hentries : ([] : List Entry) ++ (fitting cb.sizePerHart.toNat
      (headSize i + (encode []).length) calls).map (Call.entry hid) =
      written.map (Call.entry hid) := rfl
  rw [hentries] at hholds
  refine ⟨hstored, ?_, fun data hlen hpublished => ⟨_, decodes_decoded hlen hpublished.supported, ?_⟩⟩
  · rw [hholds.offset, encode, List.length_flatMap, List.map_map]
    congr 3
    funext call
    exact length_encodeEntry_entry hid call
  · have hview : ∀ call ∈ written, ((call.entry hid).cycle, (call.entry hid).hartId,
        (call.entry hid).asStr) =
        (call.timestamp, hid.toUInt16, some (Utf8.fromUtf8Lossy (cut call.text))) := by
      intro call hcall
      rw [asStr_entry hid (htexts call (mem_of_mem_fitting hcall))]
      rfl
    rw [← List.map_congr_left hview]
    have hyielded := congrArg (List.map fun e : Entry => (e.cycle, e.hartId, e.asStr))
      (hholds.filter_decoded hpublished)
    rwa [List.map_map, List.map_map] at hyielded

/-- A trace buffer of 100 bytes at 4096, the first one of its kind, with nothing in it yet. -/
def fresh : TraceMemory where
  controlBlocks _ := ⟨4096, 100, 64⟩
  bytes _ := 0
  stored := []

/-- Two lines, the second of which does not fit any more. -/
def lines : List Call := [⟨7, [104, 105]⟩, ⟨8, [104, 111]⟩]

/-- What the host sees of the buffer after `lines`. -/
def published : List UInt8 :=
  leBytes 4 magicHeader.toNat ++ leBytes 8 0 ++ leBytes 4 88 ++ leBytes 48 0 ++
    (List.range 36).map fun k => (traceStrs 3 lines fresh).bytes (4096 + 64 + UInt64.ofNat k)

theorem traceStrs_decoded_lines :
    ∃ items, Decodes published items ∧
      (items.filter (·.partition = 0)).map (fun e => (e.entry.cycle, e.entry.hartId, e.entry.asStr)) =
        [(7, 3, some "hi")] := by
  obtain ⟨-, -, hdecoded⟩ := traceStrs_decoded 3 0 lines fresh (by decide) (by decide) rfl
  have hbytes : ∀ k < 100, headSize 0 ≤ k → published[0 * (bufferOf published).stride + k]? =
      some ((traceStrs 3 lines fresh).bytes (4096 + UInt64.ofNat k)) := by
    decide +kernel
  have hpublished : Published 3 0 (traceStrs 3 lines fresh) published := by
    refine ⟨⟨?_, ?_, ?_, ?_⟩, ?_, fun h => absurd h (by decide), ?_, fun k hk hk' => hbytes k hk' hk⟩
      <;> decide +kernel
  obtain ⟨items, hdecodes, hitems⟩ := hdecoded published (by decide +kernel) hpublished
  refine ⟨items, hdecodes, hitems.trans ?_⟩
  decide +kernel

end EtSoc.TraceWriter

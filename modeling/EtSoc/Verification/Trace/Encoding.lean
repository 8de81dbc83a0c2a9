import EtSoc.Verification.Trace.Confined

/-! # Encoded entries

The iterator reads entries back that lie in a buffer as the layout prescribes. -/

namespace EtSoc.Trace

open Bytes

/-- The bytes of an entry: its header and its payload. -/
def encodeEntry (e : Entry) : List UInt8 :=
  leBytes 8 e.cycle.toNat ++ leBytes 4 e.payload.length ++ leBytes 2 e.hartId.toNat ++
    leBytes 2 e.rawType.toNat ++ e.payload

def encode (entries : List Entry) : List UInt8 := entries.flatMap encodeEntry

theorem length_encodeEntry (e : Entry) :
    (encodeEntry e).length = entryHeaderSize + e.payload.length := by
  simp only [encodeEntry, entryHeaderSize, List.length_append, length_leBytes]

theorem encode_cons (e : Entry) (entries : List Entry) :
    encode (e :: entries) = encodeEntry e ++ encode entries := rfl

section
variable {data : List UInt8} {off : ℕ}

theorem field_of_isPrefix {n value : ℕ} (h : leBytes n value <+: data.drop off) :
    field data off n = value % 256 ^ n := by
  rw [field, ← leNat_leBytes]
  obtain ⟨rest, h⟩ := h
  rw [← h, List.take_left' (length_leBytes n value)]

/-- What the fields at `off` are where an entry lies there. -/
theorem fields_of_isPrefix {e : Entry} (h : encodeEntry e <+: data.drop off)
    (hpayload : e.payload.length < 2 ^ 32) :
    field data off 8 = e.cycle.toNat ∧ payloadSize data off = e.payload.length ∧
      field data (off + 12) 2 = e.hartId.toNat ∧ field data (off + 14) 2 = e.rawType.toNat ∧
      e.payload <+: data.drop (off + entryHeaderSize) := by
  simp only [encodeEntry, append_isPrefix_drop, List.length_append, length_leBytes] at h
  obtain ⟨⟨⟨⟨hcycle, hsize⟩, hhart⟩, htype⟩, hpayload'⟩ := h
  refine ⟨?_, ?_, ?_, ?_, hpayload'⟩
  · rw [field_of_isPrefix hcycle]
    exact Nat.mod_eq_of_lt e.cycle.toNat_lt
  · rw [payloadSize, field_of_isPrefix hsize]
    exact Nat.mod_eq_of_lt hpayload
  · rw [field_of_isPrefix hhart]
    exact Nat.mod_eq_of_lt e.hartId.toNat_lt
  · rw [field_of_isPrefix htype]
    exact Nat.mod_eq_of_lt e.rawType.toNat_lt

theorem entryAt_of_isPrefix {e : Entry} (h : encodeEntry e <+: data.drop off)
    (hpayload : e.payload.length < 2 ^ 32) :
    entryAt data off = e ∧ entryEnd data off = off + (encodeEntry e).length := by
  obtain ⟨hcycle, hsize, hhart, htype, rest, hrest⟩ := fields_of_isPrefix h hpayload
  rw [entryAt, entryEnd, hcycle, hsize, hhart, htype, length_encodeEntry, ← hrest, List.take_left,
    UInt64.ofNat_toNat, UInt16.ofNat_toNat, UInt16.ofNat_toNat]
  exact ⟨rfl, Nat.add_assoc ..⟩

/-- The entries of a walk. -/
def entriesFrom (data : List UInt8) (stop off : ℕ) : List Entry :=
  (walk data stop off).map (entryAt data)

/-- A walk reads encoded entries back, and goes on after them. -/
theorem entriesFrom_encode {stop : ℕ} (entries : List Entry) :
    ∀ {off : ℕ}, encode entries <+: data.drop off → (encode entries).length < 2 ^ 32 →
      entries = [] ∨ off + (encode entries).length ≤ stop →
      entriesFrom data stop off =
        entries ++ entriesFrom data stop (off + (encode entries).length) := by
  induction entries with
  | nil => exact fun _ _ _ => rfl
  | cons e entries ih =>
    intro off hprefix hlt hstop
    replace hstop := hstop.resolve_left (List.cons_ne_nil e entries)
    rw [encode_cons, append_isPrefix_drop] at hprefix
    rw [encode_cons, List.length_append] at hlt hstop
    have hpayload : e.payload.length < 2 ^ 32 := by
      rw [length_encodeEntry] at hlt
      omega
    obtain ⟨hentry, hend⟩ := entryAt_of_isPrefix hprefix.1 hpayload
    rw [entriesFrom, walk, if_pos (by omega), List.map_cons, hentry, hend]
    change e :: entriesFrom data stop _ = _
    rw [ih hprefix.2 (by omega) (.inr (by omega)), encode_cons, List.length_append, Nat.add_assoc]
    rfl

/-- There is no entry in fewer bytes than a header has. -/
theorem entriesFrom_nil {stop : ℕ} (h : stop < entryEnd data off) :
    entriesFrom data stop off = [] := by
  rw [entriesFrom, walk, if_neg (by omega), List.map_nil]

end

/-! ## Two buffers -/

section
variable {data data' : List UInt8} {start stop : ℕ}

/-- The bytes in `[start, stop)` are the same in both buffers. -/
def Agree (data data' : List UInt8) (start stop : ℕ) : Prop :=
  ∀ k, start ≤ k → k < stop → data'[k]? = data[k]?

theorem Agree.mono {start' stop' : ℕ} (h : Agree data data' start stop) (hstart : start ≤ start')
    (hstop : stop' ≤ stop) : Agree data data' start' stop' :=
  fun k hk hk' => h k (hstart.trans hk) (hk'.trans_le hstop)

theorem Agree.slice {off width : ℕ} (h : Agree data data' off (off + width)) :
    (data'.drop off).take width = (data.drop off).take width := by
  refine List.ext_getElem? fun k => ?_
  rw [List.getElem?_take, List.getElem?_take, List.getElem?_drop, List.getElem?_drop]
  split
  · exact h _ (Nat.le_add_right ..) (by omega)
  · rfl

theorem Agree.field_eq {off width : ℕ} (h : Agree data data' off (off + width)) :
    field data' off width = field data off width := congrArg leNat h.slice

theorem Agree.entryEnd_eq {off : ℕ} (h : Agree data data' off (off + entryHeaderSize)) :
    entryEnd data' off = entryEnd data off := by
  have hsize : payloadSize data' off = payloadSize data off :=
    (h.mono (Nat.le_add_right ..) (by simp [entryHeaderSize, Nat.add_assoc])).field_eq
  rw [entryEnd, entryEnd, hsize]

theorem Agree.entryAt_eq {off : ℕ} (h : Agree data data' off (entryEnd data off)) :
    entryAt data' off = entryAt data off := by
  have hsize : off + entryHeaderSize + payloadSize data off = entryEnd data off := rfl
  have hsize' : payloadSize data' off = payloadSize data off := by
    refine (h.mono (Nat.le_add_right ..) ?_).field_eq
    simp only [entryHeaderSize] at hsize
    omega
  simp only [entryHeaderSize] at hsize
  simp only [entryAt, hsize', entryHeaderSize]
  rw [(h.mono (by omega) (by omega)).field_eq, (h.mono (by omega) (by omega)).field_eq,
    (h.mono (by omega) (by omega)).field_eq, (h.mono (by omega) (by omega)).slice]

/-- A walk reads nothing outside its bounds. -/
theorem Agree.walk_eq {off : ℕ} (h : Agree data data' off stop) :
    walk data' stop off = walk data stop off ∧
      ∀ o ∈ walk data stop off, entryAt data' o = entryAt data o := by
  induction off using walk.induct data stop with
  | case1 off hend ih =>
    have hlt := lt_entryEnd data off
    have hend' := (h.mono le_rfl (by simp only [entryEnd] at hend; omega)).entryEnd_eq
    obtain ⟨hwalk, hentries⟩ := ih (h.mono hlt.le le_rfl)
    rw [walk, walk.eq_def data, if_pos (hend'.trans_le hend), if_pos hend, hend', hwalk]
    exact ⟨rfl, List.forall_mem_cons.2 ⟨(h.mono le_rfl hend).entryAt_eq, hentries⟩⟩
  | case2 off hend =>
    have hend' : ¬entryEnd data' off ≤ stop := by
      intro hend'
      refine hend ((h.mono le_rfl ?_).entryEnd_eq ▸ hend')
      simp only [entryEnd] at hend'
      omega
    rw [walk, walk.eq_def data, if_neg hend', if_neg hend]
    exact ⟨rfl, by simp⟩

theorem Agree.items_eq {seg : Segment} (h : Agree data data' seg.start seg.stop) :
    seg.items data' seg.start = seg.items data seg.start := by
  obtain ⟨hwalk, hentries⟩ := h.walk_eq
  rw [Segment.items, Segment.items, hwalk]
  exact List.map_congr_left fun o ho => by rw [hentries o ho]

end

end EtSoc.Trace

import EtSoc.Model.Trace
import Mathlib.Data.List.Basic
import Mathlib.Tactic.Ring

/-! # The entries of a trace buffer

What the iterator yields, segment after segment. -/

namespace EtSoc.Trace

open Bytes

/-! ## Fields -/

/-- The little-endian field of `width` bytes at `off`. -/
def field (data : List UInt8) (off width : ℕ) : ℕ := leNat ((data.drop off).take width)

section
variable {data : List UInt8} {off : ℕ}

theorem rdU16_eq (h : off + 2 ≤ data.length) :
    rdU16 data off = some (UInt16.ofNat (field data off 2)) := by
  simp [rdU16, slice?, h, field]

theorem rdU32_eq (h : off + 4 ≤ data.length) :
    rdU32 data off = some (UInt32.ofNat (field data off 4)) := by
  simp [rdU32, slice?, h, field]

theorem rdU64_eq (h : off + 8 ≤ data.length) :
    rdU64 data off = some (UInt64.ofNat (field data off 8)) := by
  simp [rdU64, slice?, h, field]

theorem field_lt (data : List UInt8) (off width : ℕ) : field data off width < 256 ^ width :=
  (leNat_lt _).trans_le (Nat.pow_le_pow_right (by omega) (List.length_take_le ..))

theorem toNat_field (data : List UInt8) (off : ℕ) :
    (UInt32.ofNat (field data off 4)).toNat = field data off 4 :=
  UInt32.toNat_ofNat_of_lt' (field_lt data off 4)

end

/-! ## Walking a segment -/

/-- The size of the payload of the entry at `off`. -/
def payloadSize (data : List UInt8) (off : ℕ) : ℕ := field data (off + 8) 4

/-- Where the entry at `off` ends. -/
def entryEnd (data : List UInt8) (off : ℕ) : ℕ := off + entryHeaderSize + payloadSize data off

def entryAt (data : List UInt8) (off : ℕ) : Entry where
  cycle := UInt64.ofNat (field data off 8)
  hartId := UInt16.ofNat (field data (off + 12) 2)
  rawType := UInt16.ofNat (field data (off + 14) 2)
  payload := (data.drop (off + entryHeaderSize)).take (payloadSize data off)

/-- The offsets of the entries from `off` on that end at `stop` at the latest. -/
def walk (data : List UInt8) (stop off : ℕ) : List ℕ :=
  if entryEnd data off ≤ stop then
    off :: walk data stop (entryEnd data off)
  else
    []
termination_by stop - off
decreasing_by simp only [entryEnd, entryHeaderSize] at *; omega

/-- An entry that was yielded, and where it lies. -/
structure Located where
  partition : ℕ
  start : ℕ
  entry : Entry
deriving DecidableEq, Repr

def Located.stop (e : Located) : ℕ := e.start + entryHeaderSize + e.entry.payload.length

/-- The entries of a segment from `off` on. -/
def Segment.items (data : List UInt8) (seg : Segment) (off : ℕ) : List Located :=
  (walk data seg.stop off).map fun o => ⟨seg.partition, o, entryAt data o⟩

/-- The offset at which an iterator goes on in segment `seg`. -/
def Entries.position (it : Entries) (seg : Segment) : ℕ :=
  if it.started then it.offset else seg.start

/-- What an iterator has still to yield. -/
def Entries.remaining (it : Entries) : List Located :=
  match it.segments.drop it.segment with
  | [] => []
  | seg :: segs => seg.items it.data (it.position seg) ++
      segs.flatMap fun seg => seg.items it.data seg.start

/-! ## The iterator -/

/-- The entry that an iterator has just yielded. -/
def Entries.locate (it : Entries) (entry : Entry) : Located where
  partition := (it.segments[it.segment]?.map (·.partition)).getD 0
  start := it.offset - (entryHeaderSize + entry.payload.length)
  entry := entry

/-- All that an iterator yields, with one round more than there are entries. -/
def collect : ℕ → Entries → Option (List Located)
  | 0, _ => none
  | n + 1, it => do
    match ← it.next with
    | none => some []
    | some (entry, it) => do
      let rest ← collect n it
      some (it.locate entry :: rest)

/-- The iterator and its segments are inside a buffer that a slice can have. -/
structure Entries.Within (it : Entries) : Prop where
  slice : it.data.length < 2 ^ 63
  segment : it.segment ≤ it.segments.length
  start : ∀ seg ∈ it.segments, seg.start ≤ it.data.length
  stop : ∀ seg ∈ it.segments, seg.stop ≤ it.data.length
  offset : it.started = true → it.offset ≤ it.data.length

variable {it it' : Entries} {entry : Entry}

theorem length_payload {data : List UInt8} {off : ℕ} (h : entryEnd data off ≤ data.length) :
    (entryAt data off).payload.length = payloadSize data off := by
  simp only [entryEnd, entryHeaderSize] at h
  simp only [entryAt, List.length_take, List.length_drop, entryHeaderSize]
  omega

theorem add_eq {a b : ℕ} (h : a + b < 2 ^ 64) : add a b = some (a + b) := if_pos h

theorem saturatingAdd_eq {a b : ℕ} (h : a + b < 2 ^ 64) : saturatingAdd a b = a + b := by
  simp only [saturatingAdd]
  omega

theorem Entries.remaining_skip {seg : Segment} (hseg : it.segments[it.segment]? = some seg)
    (hend : ¬entryEnd it.data (it.position seg) ≤ seg.stop) : it.skip.remaining = it.remaining := by
  obtain ⟨hlt, rfl⟩ := List.getElem?_eq_some_iff.1 hseg
  have hitems : (it.segments[it.segment]).items it.data (it.position it.segments[it.segment]) = [] := by
    rw [Segment.items, walk, if_neg hend, List.map_nil]
  unfold Entries.remaining
  rw [List.drop_eq_getElem_cons hlt]
  simp only [Entries.skip, hitems, List.nil_append]
  split <;> rename_i heq <;> rw [heq]
  · rfl
  · rw [List.flatMap_cons]
    rfl

/-- The state of an iterator after the entry at `off`. -/
def Entries.past (it : Entries) (off : ℕ) : Entries :=
  { it with offset := entryEnd it.data off, started := true }

theorem Entries.remaining_past {seg : Segment} (hseg : it.segments[it.segment]? = some seg)
    (hend : entryEnd it.data (it.position seg) ≤ seg.stop) :
    it.remaining = ⟨seg.partition, it.position seg, entryAt it.data (it.position seg)⟩ ::
      (it.past (it.position seg)).remaining := by
  obtain ⟨hlt, rfl⟩ := List.getElem?_eq_some_iff.1 hseg
  unfold Entries.remaining
  simp only [Entries.past, List.drop_eq_getElem_cons hlt]
  rw [Segment.items, walk, if_pos hend]
  rfl

theorem Entries.locate_past {seg : Segment} (hseg : it.segments[it.segment]? = some seg) {off : ℕ}
    (hend : entryEnd it.data off ≤ it.data.length) :
    (it.past off).locate (entryAt it.data off) = ⟨seg.partition, off, entryAt it.data off⟩ := by
  simp only [Entries.locate, Entries.past, hseg, length_payload hend]
  simp [entryEnd, Nat.add_assoc]

theorem Entries.remaining_nil (h : it.segments[it.segment]? = none) : it.remaining = [] := by
  unfold Entries.remaining
  rw [List.drop_eq_nil_of_le (List.getElem?_eq_none_iff.1 h)]

/-- What `next` does in the segment it is in. -/
theorem nextLoop_succ (hw : it.Within) {seg : Segment}
    (hseg : it.segments[it.segment]? = some seg) (n : ℕ) :
    nextLoop (n + 1) it = if entryEnd it.data (it.position seg) ≤ seg.stop then
        some (some (entryAt it.data (it.position seg), it.past (it.position seg)))
      else nextLoop n it.skip := by
  have hmem := List.mem_of_getElem? hseg
  have hstop := hw.stop seg hmem
  have hslice := hw.slice
  have hoff : it.position seg ≤ it.data.length := by
    unfold Entries.position
    split
    · exact hw.offset ‹_›
    · exact hw.start seg hmem
  simp only [nextLoop, hseg]
  rw [show (if it.started = true then it.offset else seg.start) = it.position seg from rfl,
    add_eq (by simp only [entryHeaderSize]; omega)]
  simp only [Option.bind_eq_bind, Option.bind_some]
  by_cases hheader : it.position seg + entryHeaderSize > seg.stop
  · rw [if_pos hheader, if_neg (by simp only [entryEnd]; omega)]
  rw [if_neg hheader]
  simp only [entryHeaderSize] at hheader
  rw [rdU64_eq (by omega), rdU32_eq (by omega), rdU16_eq (by omega), rdU16_eq (by omega)]
  simp only [Option.bind_some, toNat_field]
  have hsize := field_lt it.data (it.position seg + 8) 4
  rw [saturatingAdd_eq (by simp only [entryHeaderSize]; omega)]
  have hendEq : entryEnd it.data (it.position seg) =
      it.position seg + entryHeaderSize + field it.data (it.position seg + 8) 4 := rfl
  rw [← hendEq]
  by_cases hend : entryEnd it.data (it.position seg) ≤ seg.stop
  · rw [if_neg (by omega), if_pos hend]
    have hpayload : slice? it.data (it.position seg + entryHeaderSize)
        (entryEnd it.data (it.position seg) - (it.position seg + entryHeaderSize)) =
        some (entryAt it.data (it.position seg)).payload := by
      rw [hendEq, Nat.add_sub_cancel_left, slice?_eq_some]
      exact ⟨by omega, rfl⟩
    rw [hpayload]
    rfl
  · rw [if_pos (by omega), if_neg hend]

theorem Entries.Within.skip (hw : it.Within) {seg : Segment}
    (hseg : it.segments[it.segment]? = some seg) : it.skip.Within :=
  ⟨hw.slice, (List.getElem?_eq_some_iff.1 hseg).1, hw.start, hw.stop, by simp [Entries.skip]⟩

theorem Entries.Within.past (hw : it.Within) {off : ℕ} (hend : entryEnd it.data off ≤ it.data.length) :
    (it.past off).Within :=
  ⟨hw.slice, hw.segment, hw.start, hw.stop, fun _ => hend⟩

/-- The end of an iteration, or its next entry. -/
theorem nextLoop_eq (n : ℕ) : ∀ {it : Entries}, it.Within → it.segments.length < it.segment + n →
    (it.remaining = [] ∧ nextLoop n it = some none) ∨
    ∃ item rest it', it.remaining = item :: rest ∧ nextLoop n it = some (some (item.entry, it')) ∧
      it'.Within ∧ it'.remaining = rest ∧ it'.locate item.entry = item := by
  induction n with
  | zero =>
    intro it hw hn
    have := hw.segment
    omega
  | succ n ih =>
    intro it hw hn
    cases hseg : it.segments[it.segment]? with
    | none => exact .inl ⟨Entries.remaining_nil hseg, by simp [nextLoop, hseg]⟩
    | some seg =>
      rw [nextLoop_succ hw hseg]
      by_cases hend : entryEnd it.data (it.position seg) ≤ seg.stop
      · have hfits := hend.trans (hw.stop seg (List.mem_of_getElem? hseg))
        rw [if_pos hend]
        exact .inr ⟨_, _, _, Entries.remaining_past hseg hend, rfl, hw.past hfits, rfl,
          Entries.locate_past hseg hfits⟩
      · rw [if_neg hend, ← Entries.remaining_skip hseg hend]
        refine ih (hw.skip hseg) ?_
        simp only [Entries.skip]
        omega

/-- An iterator yields what it has still to yield, and ends. -/
theorem collect_eq (n : ℕ) : ∀ {it : Entries}, it.Within → it.remaining.length < n →
    collect n it = some it.remaining := by
  induction n with
  | zero => exact fun _ h => absurd h (Nat.not_lt_zero _)
  | succ n ih =>
    intro it hw hn
    obtain ⟨hnil, hnext⟩ | ⟨item, rest, it', hcons, hnext, hw', rfl, hlocate⟩ :=
      nextLoop_eq (it.segments.length + 1) hw (by omega)
    · simp [collect, Entries.next, hnext, hnil]
    · rw [hcons, List.length_cons] at hn
      simp [collect, Entries.next, hnext, hcons, ih hw' (by omega), hlocate]

theorem collect_sound (n : ℕ) : ∀ {it : Entries} {items : List Located}, it.Within →
    collect n it = some items → items = it.remaining := by
  induction n with
  | zero => exact fun _ h => by simp [collect] at h
  | succ n ih =>
    intro it items hw h
    obtain ⟨hnil, hnext⟩ | ⟨item, rest, it', hcons, hnext, hw', rfl, hlocate⟩ :=
      nextLoop_eq (it.segments.length + 1) hw (by omega)
    · simpa [collect, Entries.next, hnext, hnil, eq_comm] using h
    · simp only [collect, Entries.next, hnext, Option.bind_eq_bind, Option.bind_some,
        Option.bind_eq_some_iff, Option.some.injEq] at h
      obtain ⟨rest, hrest, rfl⟩ := h
      rw [hcons, hlocate, ih hw' hrest]

end EtSoc.Trace

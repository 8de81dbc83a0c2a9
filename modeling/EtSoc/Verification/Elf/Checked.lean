import EtSoc.Verification.Elf.Parse

/-! # The ELF parser never panics -/

namespace EtSoc.Elf

open Program Bytes

variable {image : List UInt8}

/-- Step by step, a computation that does not panic is one that does not know panics. -/
theorem ofExcept_bind {α β : Type} {x : Except Error α} {k : α → Checked β}
    {k' : α → Except Error β} (h : ∀ a, x = .ok a → k a = Prog.ofExcept (k' a)) :
    (Prog.ofExcept x >>= k) = (Prog.ofExcept (x >>= k') : Checked β) := by
  cases x with
  | ok a => exact h a rfl
  | error e => rfl

theorem checked_pure_bind {α β : Type} (a : α) (k : α → Checked β) : (pure a >>= k) = k a := rfl

theorem add_eq {a b : ℕ} (h : a + b < 2 ^ 64) : add a b = pure (a + b) := if_pos h

theorem rd_eq {offset width : ℕ} (h : offset + width ≤ image.length) (hlen : image.length < 2 ^ 64) :
    rd image offset width = pure (field image offset width) := by
  rw [rd, add_eq (by omega), checked_pure_bind, readField_eq h]
  rfl

theorem findOverlap_eq {segments : List LoadSegment} {vaddr memSize : ℕ}
    (h : ∀ s ∈ segments, s.vaddr + s.memSize < 2 ^ 64) :
    findOverlap vaddr memSize (vaddr + memSize) segments =
      pure (overlapping segments vaddr memSize) := by
  induction segments with
  | nil => rfl
  | cons s segments ih =>
    have hs := h s List.mem_cons_self
    have ih := ih fun t ht => h t (List.mem_cons_of_mem _ ht)
    rw [findOverlap, overlaps, overlapping, List.find?_cons]
    by_cases hpos : 0 < memSize ∧ 0 < s.memSize
    · rw [if_pos hpos, add_eq hs]
      simp only [checked_pure_bind, hpos.1, hpos.2, true_and, decide_eq_true_eq]
      by_cases hover : vaddr < s.vaddr + s.memSize ∧ s.vaddr < vaddr + memSize
      · simp [hover]
      · simp only [hover, if_false, decide_false, ih, overlapping, hpos.1, true_and]
    · rw [if_neg hpos, checked_pure_bind, ih]
      have hfalse : decide (0 < memSize ∧ 0 < s.memSize ∧ vaddr < s.vaddr + s.memSize ∧
          s.vaddr < vaddr + memSize) = false := by
        simp only [decide_eq_false_iff_not]
        exact fun hall => hpos ⟨hall.1, hall.2.1⟩
      simp only [hfalse]
      rfl

theorem checkedHeader_eq {base : ℕ} {segments : List LoadSegment} (hlen : image.length < 2 ^ 64)
    (hbase : base + phentSize ≤ image.length)
    (hsegments : ∀ s ∈ segments, s.vaddr + s.memSize < 2 ^ 64) :
    checkedHeader image base segments =
      Prog.ofExcept (parseHeader image base segments >>= fun o => pure (segments ++ o.toList)) := by
  have hb : base + 56 ≤ image.length := hbase
  unfold checkedHeader parseHeader
  rw [readField_eq (by omega), readField_eq (by omega), readField_eq (by omega),
    readField_eq (by omega), readField_eq (by omega)]
  rw [rd_eq (by omega) hlen, add_eq (by omega), add_eq (by omega), add_eq (by omega),
    add_eq (by omega)]
  simp only [checked_pure_bind, ok_bind]
  rw [rd_eq (by omega) hlen, rd_eq (by omega) hlen, rd_eq (by omega) hlen, rd_eq (by omega) hlen]
  simp only [checked_pure_bind]
  split
  · simp [pure, Except.pure, bind, Except.bind, Prog.ofExcept]
  · simp only [bind_assoc]
    refine ofExcept_bind fun fileEnd _ => ofExcept_bind fun _ _ => ofExcept_bind fun _ _ =>
      ofExcept_bind fun memEnd hmemEnd => ?_
    obtain ⟨-, rfl⟩ := checkedAdd_eq_ok.1 hmemEnd
    rw [findOverlap_eq hsegments, checked_pure_bind]
    cases overlapping segments (field image (base + 16) 8) (field image (base + 40) 8) <;> rfl

theorem checkedHeaders_eq {phoff : ℕ} (hlen : image.length < 2 ^ 64) (n : ℕ) :
    ∀ {i : ℕ} {segments : List LoadSegment}, phoff + phentSize * (i + n) ≤ image.length →
      (∀ s ∈ segments, s.vaddr + s.memSize < 2 ^ 64) →
      checkedHeaders image phoff n i segments =
        Prog.ofExcept (parseHeaders image n (phoff + phentSize * i) segments) := by
  induction n with
  | zero => exact fun _ _ => rfl
  | succ n ih =>
    intro i segments hle hsegments
    have hi : phentSize * (i + (n + 1)) = phentSize * i + phentSize + phentSize * n := by
      simp only [Nat.mul_add]
      omega
    have hcomm : i * phentSize = phentSize * i := Nat.mul_comm ..
    rw [checkedHeaders, parseHeaders, mul, hcomm, if_pos (by omega), checked_pure_bind,
      add_eq (by omega), checked_pure_bind, checkedHeader_eq hlen (by omega) hsegments]
    cases hparse : parseHeader image (phoff + phentSize * i) segments with
    | error e => rfl
    | ok o =>
      obtain ⟨rfl, hvalid⟩ := (parseHeader_eq_ok _ hlen (by omega)).1 hparse
      simp only [ok_bind]
      change checkedHeaders image phoff n (i + 1) (segments ++ _) = _
      have hnext : phoff + phentSize * i + phentSize = phoff + phentSize * (i + 1) := by
        rw [Nat.mul_add]
        omega
      rw [hnext, ih (by rwa [Nat.add_assoc, Nat.add_comm 1 n]) fun s hs => ?_]
      rcases List.mem_append.1 hs with hs | hs
      · exact hsegments s hs
      · exact (hvalid s (by simpa using hs)).1.inMemory

theorem checkedContains_eq {s : LoadSegment} {entry : ℕ} (h : s.vaddr + s.memSize < 2 ^ 64) :
    checkedContains entry s = pure (containsEntry entry s) := by
  unfold checkedContains containsEntry
  by_cases hle : s.vaddr ≤ entry
  · rw [if_pos hle, add_eq h, checked_pure_bind]
    simp only [hle, true_and]
  · simp only [hle, if_false, false_and, decide_false]

theorem anyContains_eq {segments : List LoadSegment} {entry : ℕ}
    (h : ∀ s ∈ segments, s.vaddr + s.memSize < 2 ^ 64) :
    anyContains entry segments = pure (segments.any (containsEntry entry)) := by
  induction segments with
  | nil => rfl
  | cons s segments ih =>
    rw [anyContains, checkedContains_eq (h s List.mem_cons_self), checked_pure_bind,
      ih fun t ht => h t (List.mem_cons_of_mem _ ht), List.any_cons]
    cases containsEntry entry s <;> rfl

theorem field_two {i : ℕ} {low high : UInt8} (hlow : image[i]? = some low)
    (hhigh : image[i + 1]? = some high) : leNat [low, high] = field image i 2 := by
  rw [field]
  congr 1
  obtain ⟨hi, rfl⟩ := List.getElem?_eq_some_iff.1 hlow
  obtain ⟨hi', rfl⟩ := List.getElem?_eq_some_iff.1 hhigh
  rw [List.drop_eq_getElem_cons hi, List.drop_eq_getElem_cons hi']
  rfl

/-- With the panics or without, the parser does the same. -/
theorem parseChecked_eq (hlen : image.length < 2 ^ 64) :
    parseChecked image = Prog.ofExcept (parse image) := by
  unfold parseChecked parse
  refine ofExcept_bind fun _ hheader => ?_
  have hheader : 64 ≤ image.length := by
    by_contra hshort
    simp [require, hshort, fail] at hheader
  have hget : ∀ i < 64, image[i]? = some (image.getD i 0) := fun i hi => by
    simp [List.getD_eq_getElem?_getD, List.getElem?_eq_getElem (show i < image.length by omega)]
  have hspan : span image 0 4 = pure (image.take 4) := by
    simp [span, slice?, show 4 ≤ image.length by omega]
  have hindex : ∀ i < 64, index image i = pure (image.getD i 0) := fun i hi => by
    rw [index, hget i hi]
  rw [hspan, hindex 4 (by omega), hindex 5 (by omega), hindex 18 (by omega), hindex 19 (by omega),
    rd_eq (by omega) hlen, rd_eq (by omega) hlen, rd_eq (by omega) hlen, rd_eq (by omega) hlen,
    readField_eq (by omega), readField_eq (by omega), readField_eq (by omega),
    readField_eq (by omega), readField_eq (by omega), hget 4 (by omega), hget 5 (by omega)]
  simp only [checked_pure_bind, ok_bind, Option.some.injEq]
  rw [field_two (hget 18 (by omega)) (hget 19 (by omega))]
  refine ofExcept_bind fun _ _ => ofExcept_bind fun _ _ => ofExcept_bind fun _ _ =>
    ofExcept_bind fun _ _ => ofExcept_bind fun _ _ => ?_
  have htable : tableEnd (field image 32 8) (field image 56 2) = checkedAdd (field image 32 8)
      (field image 56 2 * phentSize) "program header table range overflows" := by
    have := field_lt image 56 2
    rw [tableEnd, if_pos (by simp only [phentSize]; omega)]
  rw [htable]
  refine ofExcept_bind fun stop hstop => ofExcept_bind fun _ hfits => ?_
  obtain ⟨-, rfl⟩ := checkedAdd_eq_ok.1 hstop
  have hfits : field image 32 8 + phentSize * field image 56 2 ≤ image.length := by
    by_contra hlong
    rw [Nat.mul_comm] at hlong
    simp [require, hlong, fail] at hfits
  rw [checkedHeaders_eq hlen _ (by rwa [Nat.zero_add]) (by simp)]
  refine ofExcept_bind fun segments hsegments => ?_
  obtain ⟨rfl, hvalid, -⟩ := (parseHeaders_eq_ok hlen _ _ _ hfits).1 hsegments
  rw [List.nil_append, anyContains_eq fun s hs => (hvalid s hs).1.inMemory]
  rw [checked_pure_bind]
  by_cases hnil : segmentsFrom image (field image 32 8) (field image 56 2) = []
  · rw [if_pos hnil, require, if_pos (.inl hnil)]
    rfl
  · rw [if_neg hnil, require, ensure, require]
    simp only [hnil, false_or]
    split <;> rfl

/-- The image parses, and nothing panics. -/
theorem parseChecked_eq_ok (hlen : image.length < 2 ^ 64) {kernel : KernelImage} :
    (parseChecked image ()).1 = .ok kernel ↔
      Wellformed image ∧ kernel = ⟨entryOf image, loadable image⟩ := by
  rw [parseChecked_eq hlen, ← parse_eq_ok hlen]
  cases parse image with
  | ok k => exact ⟨fun h => congrArg _ (Outcome.ok.inj h), fun h => congrArg _ (Except.ok.inj h)⟩
  | error e => exact ⟨fun h => by simp [Prog.ofExcept, Prog.throw] at h, fun h => by simp at h⟩

theorem parseChecked_returns (hlen : image.length < 2 ^ 64) (r : Stop) :
    (parseChecked image ()).1 ≠ .stop r := by
  rw [parseChecked_eq hlen]
  cases parse image <;> simp [Prog.ofExcept, Prog.throw, Prog.pure]

/-- For every byte string, the parser returns, with no index out of bounds and no overflow,
and it accepts exactly the well-formed images. -/
theorem parseChecked_accepts (image : List UInt8) (hlen : image.length < 2 ^ 64) :
    (∀ r, (parseChecked image ()).1 ≠ .stop r) ∧
      ∀ kernel, (parseChecked image ()).1 = .ok kernel ↔
        Wellformed image ∧ kernel = ⟨entryOf image, loadable image⟩ :=
  ⟨parseChecked_returns hlen, fun _ => parseChecked_eq_ok hlen⟩

/-- Two loadable segments that adjoin, the first of which ends in six zeros, with a note between
their headers; the entry point is in the second one. -/
def twoSegments : List UInt8 :=
  [127, 69, 76, 70, 2, 1, 0, 0, 0, 0, 0, 0, 0, 0, 0, 0, 2, 0, 243, 0, 1, 0, 0, 0,
    12, 16, 0, 0, 0, 0, 0, 0, 64, 0, 0, 0, 0, 0, 0, 0, 0, 0, 0, 0, 0, 0, 0, 0,
    0, 0, 0, 0, 64, 0, 56, 0, 3, 0, 0, 0, 0, 0, 0, 0] ++
  [1, 0, 0, 0, 5, 0, 0, 0, 232, 0, 0, 0, 0, 0, 0, 0, 0, 16, 0, 0, 0, 0, 0, 0,
    0, 0, 0, 0, 0, 0, 0, 0, 5, 0, 0, 0, 0, 0, 0, 0, 11, 0, 0, 0, 0, 0, 0, 0,
    0, 16, 0, 0, 0, 0, 0, 0] ++
  [4, 0, 0, 0] ++ List.replicate 52 255 ++
  [1, 0, 0, 0, 5, 0, 0, 0, 237, 0, 0, 0, 0, 0, 0, 0, 11, 16, 0, 0, 0, 0, 0, 0,
    0, 0, 0, 0, 0, 0, 0, 0, 2, 0, 0, 0, 0, 0, 0, 0, 2, 0, 0, 0, 0, 0, 0, 0,
    0, 16, 0, 0, 0, 0, 0, 0] ++ [1, 2, 3, 4, 5, 6, 7]

theorem loadable_twoSegments :
    loadable twoSegments = [⟨232, 4096, 5, 11⟩, ⟨237, 4107, 2, 2⟩] := by decide +kernel

theorem wellformed_twoSegments : Wellformed twoSegments where
  header := by decide +kernel
  magic := by decide
  fileClass := by decide
  data := by decide
  machine := by decide
  phentsize := by decide
  table := by decide +kernel
  valid s hs := by
    rw [loadable_twoSegments] at hs
    obtain rfl | rfl : s = ⟨232, 4096, 5, 11⟩ ∨ s = ⟨237, 4107, 2, 2⟩ := by simpa using hs
    · exact ⟨by decide +kernel, by decide, by decide⟩
    · exact ⟨by decide +kernel, by decide, by decide⟩
  disjoint := by
    rw [loadable_twoSegments, List.pairwise_pair]
    intro x hx
    dsimp only at hx
    omega
  entry := by
    rw [loadable_twoSegments]
    exact .inr ⟨⟨237, 4107, 2, 2⟩, by simp, by decide +kernel, by decide +kernel⟩

theorem parseChecked_accepts_twoSegments :
    (∀ r, (parseChecked twoSegments ()).1 ≠ .stop r) ∧
      (parseChecked twoSegments ()).1 = .ok ⟨4108, [⟨232, 4096, 5, 11⟩, ⟨237, 4107, 2, 2⟩]⟩ := by
  obtain ⟨hreturns, haccepts⟩ := parseChecked_accepts twoSegments (by decide +kernel)
  have hentry : entryOf twoSegments = 4108 := by decide +kernel
  refine ⟨hreturns, (haccepts _).2 ⟨wellformed_twoSegments, ?_⟩⟩
  rw [hentry, loadable_twoSegments]

end EtSoc.Elf

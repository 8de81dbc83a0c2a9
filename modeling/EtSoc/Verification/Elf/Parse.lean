import EtSoc.Model.ElfChecked

/-! # What the ELF parser accepts -/

namespace EtSoc.Elf

open Program Bytes

/-- The little-endian value of the `width` bytes at `offset`. -/
def field (image : List UInt8) (offset width : ℕ) : ℕ := leNat ((image.drop offset).take width)

theorem readField_eq {image : List UInt8} {offset width : ℕ} (h : offset + width ≤ image.length) :
    readField image offset width = .ok (field image offset width) := by
  simp [readField, slice?, h, field]

theorem field_lt (image : List UInt8) (offset width : ℕ) :
    field image offset width < 256 ^ width :=
  (leNat_lt _).trans_le (Nat.pow_le_pow_right (by omega) (List.length_take_le ..))

/-! ## Headers -/

/-- The loadable segment that the program header at `base` describes. -/
def segmentAt (image : List UInt8) (base : ℕ) : Option LoadSegment :=
  if field image base 4 = ptLoad then
    some ⟨field image (base + 8) 8, field image (base + 16) 8, field image (base + 32) 8,
      field image (base + 40) 8⟩
  else
    none

/-- A segment whose ranges are as they should be. -/
structure Valid (image : List UInt8) (s : LoadSegment) : Prop where
  inFile : s.fileOffset + s.fileSize ≤ image.length
  size : s.fileSize ≤ s.memSize
  inMemory : s.vaddr + s.memSize < 2 ^ 64

/-- Two segments share no address. -/
def Disjoint (s t : LoadSegment) : Prop :=
  ∀ x, ¬((s.vaddr ≤ x ∧ x < s.vaddr + s.memSize) ∧ t.vaddr ≤ x ∧ x < t.vaddr + t.memSize)

theorem overlapping_eq_none (segments : List LoadSegment) (t : LoadSegment) :
    overlapping segments t.vaddr t.memSize = none ↔ ∀ s ∈ segments, Disjoint s t := by
  simp only [overlapping, List.find?_eq_none, decide_eq_true_eq]
  refine forall₂_congr fun s _ => ⟨fun h x hx => h (by omega), fun h hx => ?_⟩
  exact h (max s.vaddr t.vaddr) (by omega)

theorem checkedAdd_eq_ok {a b c : ℕ} {message : String} :
    checkedAdd a b message = .ok c ↔ a + b < 2 ^ 64 ∧ c = a + b := by
  unfold checkedAdd fail
  split <;> simp_all [eq_comm]

theorem require_bind_eq_ok {α : Type} {p : Prop} [Decidable p] {message : String}
    {k : Unit → Except Error α} {r : α} :
    (require p message >>= k) = .ok r ↔ p ∧ k () = .ok r := by
  unfold require fail
  split <;> simp_all [bind, Except.bind]

theorem checkedAdd_bind_eq_ok {α : Type} {a b : ℕ} {message : String} {k : ℕ → Except Error α}
    {r : α} : (checkedAdd a b message >>= k) = .ok r ↔ a + b < 2 ^ 64 ∧ k (a + b) = .ok r := by
  unfold checkedAdd fail
  split <;> simp_all [bind, Except.bind]

theorem ok_bind {α β : Type} (a : α) (k : α → Except Error β) : ((.ok a : Except Error α) >>= k) = k a :=
  rfl

theorem parseHeader_eq_ok {image : List UInt8} {base : ℕ} (segments : List LoadSegment)
    {o : Option LoadSegment} (hlen : image.length < 2 ^ 64)
    (hbase : base + phentSize ≤ image.length) :
    parseHeader image base segments = .ok o ↔
      o = segmentAt image base ∧ ∀ t ∈ segmentAt image base, Valid image t ∧
        ∀ s ∈ segments, Disjoint s t := by
  have hb : base + 56 ≤ image.length := hbase
  unfold parseHeader segmentAt
  rw [readField_eq (by omega), readField_eq (by omega), readField_eq (by omega),
    readField_eq (by omega), readField_eq (by omega)]
  simp only [ok_bind]
  by_cases htype : field image base 4 = ptLoad
  · rw [if_neg (not_not.2 htype), if_pos htype, checkedAdd_bind_eq_ok, require_bind_eq_ok,
      require_bind_eq_ok, checkedAdd_bind_eq_ok]
    have hover := overlapping_eq_none segments ⟨field image (base + 8) 8,
      field image (base + 16) 8, field image (base + 32) 8, field image (base + 40) 8⟩
    simp only at hover
    split
    · rename_i other hother
      rw [hother] at hover
      simp only [fail, reduceCtorEq, and_false, Option.mem_def, Option.some.injEq, false_iff,
        forall_eq', not_and]
      intro _ _ hall
      exact absurd (hover.2 hall) (by simp)
    · rename_i hnone
      have hall := hover.1 hnone
      simp only [pure, Except.pure, Except.ok.injEq, Option.mem_def, Option.some.injEq, forall_eq']
      constructor
      · rintro ⟨_, hfile, hsize, hmem, rfl⟩
        exact ⟨rfl, ⟨hfile, hsize, hmem⟩, hall⟩
      · rintro ⟨rfl, ⟨hfile, hsize, hmem⟩, _⟩
        exact ⟨hfile.trans_lt hlen, hfile, hsize, hmem, rfl⟩
  · rw [if_pos htype, if_neg htype]
    simp [pure, Except.pure, eq_comm]

/-- The segments that `n` program headers from `base` on describe. -/
def segmentsFrom (image : List UInt8) (base n : ℕ) : List LoadSegment :=
  (List.range n).filterMap fun i => segmentAt image (base + phentSize * i)

theorem segmentsFrom_succ (image : List UInt8) (base n : ℕ) :
    segmentsFrom image base (n + 1) =
      (segmentAt image base).toList ++ segmentsFrom image (base + phentSize) n := by
  simp only [segmentsFrom, List.range_succ_eq_map, List.filterMap_cons, List.filterMap_map,
    Nat.mul_zero, Nat.add_zero]
  have hshift : (fun i => segmentAt image (base + phentSize * i)) ∘ Nat.succ =
      fun i => segmentAt image (base + phentSize + phentSize * i) := by
    funext i
    simp only [Function.comp_apply]
    congr 1
    rw [Nat.succ_eq_add_one, Nat.mul_add]
    omega
  rw [hshift]
  cases segmentAt image base <;> rfl

theorem parseHeaders_eq_ok {image : List UInt8} (hlen : image.length < 2 ^ 64) (n : ℕ) :
    ∀ {base : ℕ} (segments out : List LoadSegment), base + phentSize * n ≤ image.length →
      (parseHeaders image n base segments = .ok out ↔
        out = segments ++ segmentsFrom image base n ∧
        (∀ t ∈ segmentsFrom image base n, Valid image t ∧ ∀ s ∈ segments, Disjoint s t) ∧
        (segmentsFrom image base n).Pairwise Disjoint) := by
  induction n with
  | zero =>
    intro base segments out _
    simp [parseHeaders, segmentsFrom, eq_comm]
  | succ n ih =>
    intro base segments out hle
    have hmul : phentSize * (n + 1) = phentSize + phentSize * n := by rw [Nat.mul_add]; omega
    rw [parseHeaders, segmentsFrom_succ]
    have hbase : base + phentSize ≤ image.length := by omega
    have hhead := parseHeader_eq_ok segments (o := segmentAt image base) hlen hbase
    cases hparse : parseHeader image base segments with
    | error e =>
      simp only [hparse, reduceCtorEq, true_and, false_iff] at hhead
      simp only [bind, Except.bind, reduceCtorEq, false_iff]
      rintro ⟨-, hall, -⟩
      exact hhead fun t ht => hall t (List.mem_append_left _ (by simpa using ht))
    | ok o =>
      obtain ⟨rfl, hvalid⟩ := (parseHeader_eq_ok _ hlen (by omega)).1 hparse
      rw [ok_bind, ih _ _ (by omega)]
      cases hsegment : segmentAt image base with
      | none => simp
      | some t =>
        have ht := hvalid t hsegment
        simp only [Option.toList_some, List.append_assoc, List.cons_append, List.nil_append,
          List.mem_append, List.mem_cons, List.not_mem_nil, or_false, List.pairwise_cons]
        constructor
        · rintro ⟨rfl, hall, hpair⟩
          exact ⟨rfl, fun s hs => hs.elim (fun h => h ▸ ht) fun hs =>
            ⟨(hall s hs).1, fun u hu => (hall s hs).2 u (.inl hu)⟩,
            fun s hs => (hall s hs).2 t (.inr rfl), hpair⟩
        · rintro ⟨rfl, hall, hfirst, hpair⟩
          exact ⟨rfl, fun s hs => ⟨(hall s (.inr hs)).1, fun u hu =>
            hu.elim ((hall s (.inr hs)).2 u) fun h => h ▸ hfirst s hs⟩, hpair⟩

/-! ## Images -/

/-- `e_entry`, `e_phoff` and `e_phnum`. -/
def entryOf (image : List UInt8) : ℕ := field image 24 8

def phoffOf (image : List UInt8) : ℕ := field image 32 8

def phnumOf (image : List UInt8) : ℕ := field image 56 2

/-- The `PT_LOAD` headers, in order. -/
def loadable (image : List UInt8) : List LoadSegment :=
  segmentsFrom image (phoffOf image) (phnumOf image)

/-- An image that can be loaded. -/
structure Wellformed (image : List UInt8) : Prop where
  header : 64 ≤ image.length
  magic : image.take 4 = [127, 69, 76, 70]
  fileClass : image[4]? = some 2
  data : image[5]? = some 1
  machine : field image 18 2 = emRiscv
  phentsize : field image 54 2 = phentSize
  table : phoffOf image + phentSize * phnumOf image ≤ image.length
  valid : ∀ s ∈ loadable image, Valid image s
  disjoint : (loadable image).Pairwise Disjoint
  entry : loadable image = [] ∨
    ∃ s ∈ loadable image, s.vaddr ≤ entryOf image ∧ entryOf image < s.vaddr + s.memSize

theorem any_containsEntry {segments : List LoadSegment} {entry : ℕ} :
    segments.any (containsEntry entry) = true ↔
      ∃ s ∈ segments, s.vaddr ≤ entry ∧ entry < s.vaddr + s.memSize := by
  simp [containsEntry]

theorem parse_eq_ok {image : List UInt8} (hlen : image.length < 2 ^ 64) {kernel : KernelImage} :
    parse image = .ok kernel ↔ Wellformed image ∧ kernel = ⟨entryOf image, loadable image⟩ := by
  unfold parse
  rw [require_bind_eq_ok]
  by_cases hheader : 64 ≤ image.length
  swap
  · exact ⟨fun h => absurd h.1 hheader, fun h => absurd h.1.header hheader⟩
  rw [readField_eq (by omega), readField_eq (by omega), readField_eq (by omega),
    readField_eq (by omega), readField_eq (by omega)]
  simp only [ok_bind, require_bind_eq_ok, checkedAdd_bind_eq_ok]
  by_cases htable : phoffOf image + phentSize * phnumOf image ≤ image.length
  swap
  · refine ⟨fun h => absurd ?_ htable, fun h => absurd h.1.table htable⟩
    have := h.2.2.2.2.2.2.2.1
    rwa [Nat.mul_comm] at this
  have hheaders := fun out => parseHeaders_eq_ok hlen (phnumOf image) [] out htable
  constructor
  · rintro ⟨-, hmagic, hclass, hdata, hmachine, hphentsize, -, -, hrest⟩
    change (parseHeaders image (phnumOf image) (phoffOf image) [] >>= _) = _ at hrest
    cases hparse : parseHeaders image (phnumOf image) (phoffOf image) [] with
    | error e => simp [hparse, bind, Except.bind] at hrest
    | ok segments =>
      obtain ⟨rfl, hvalid, hpair⟩ := (hheaders segments).1 hparse
      rw [hparse, ok_bind, require_bind_eq_ok] at hrest
      obtain ⟨hentry, heq⟩ := hrest
      exact ⟨⟨hheader, hmagic, hclass, hdata, hmachine, hphentsize, htable,
        fun s hs => (hvalid s hs).1, hpair, hentry.imp id any_containsEntry.1⟩,
        (Except.ok.inj heq).symm⟩
  · rintro ⟨h, rfl⟩
    have hparse := (hheaders (loadable image)).2
      ⟨rfl, fun s hs => ⟨h.valid s hs, by simp⟩, h.disjoint⟩
    refine ⟨hheader, h.magic, h.fileClass, h.data, h.machine, h.phentsize, ?_, ?_, ?_⟩
    · rw [Nat.mul_comm]
      exact htable.trans_lt hlen
    · rw [Nat.mul_comm]
      exact htable
    · change (parseHeaders image (phnumOf image) (phoffOf image) [] >>= _) = _
      rw [hparse, ok_bind, require_bind_eq_ok]
      exact ⟨h.entry.imp id any_containsEntry.2, rfl⟩

end EtSoc.Elf

import Mathlib.Data.List.Basic
import Mathlib.Data.Nat.Bitwise

/-! # Bit fields

Words that are put together from fields. A field takes the low bits of its value, and fields that
share no bit are read back as they were put. -/

namespace BitFields

/-- The bits `offset .. offset + width` of a word. -/
structure Field where
  offset : ℕ
  width : ℕ
deriving DecidableEq, Repr

namespace Field

def get (f : Field) (x : ℕ) : ℕ := x >>> f.offset % 2 ^ f.width

/-- A word with the low bits of `v` in the field, and zeros elsewhere. -/
def put (f : Field) (v : ℕ) : ℕ := (v % 2 ^ f.width) <<< f.offset

def Apart (f g : Field) : Prop :=
  f.offset + f.width ≤ g.offset ∨ g.offset + g.width ≤ f.offset

instance (f g : Field) : Decidable (f.Apart g) := inferInstanceAs (Decidable (_ ∨ _))

variable {f g : Field} {x y v : ℕ}

theorem Apart.symm (h : f.Apart g) : g.Apart f := Or.symm h

@[simp] theorem get_zero (f : Field) : f.get 0 = 0 := by
  simp [get]

theorem get_or (f : Field) (x y : ℕ) : f.get (x ||| y) = f.get x ||| f.get y := by
  rw [get, Nat.shiftRight_or_distrib, Nat.or_mod_two_pow]
  rfl

theorem get_put_self (f : Field) (v : ℕ) : f.get (f.put v) = v % 2 ^ f.width := by
  rw [get, put, Nat.shiftLeft_shiftRight, Nat.mod_mod]

theorem testBit_get (f : Field) (x i : ℕ) :
    (f.get x).testBit i = (decide (i < f.width) && x.testBit (f.offset + i)) := by
  rw [get, Nat.testBit_mod_two_pow, Nat.testBit_shiftRight]

theorem testBit_put (f : Field) (v i : ℕ) :
    (f.put v).testBit i =
      (decide (f.offset ≤ i) && (decide (i - f.offset < f.width) && v.testBit (i - f.offset))) := by
  rw [put, Nat.testBit_shiftLeft, Nat.testBit_mod_two_pow]

theorem get_put_of_apart (h : f.Apart g) (v : ℕ) : f.get (g.put v) = 0 := by
  refine Nat.eq_of_testBit_eq fun i => ?_
  rw [testBit_get, testBit_put, Nat.zero_testBit]
  rcases h with h | h
  · by_cases hi : i < f.width
    · simp [show ¬g.offset ≤ f.offset + i by omega]
    · simp [hi]
  · simp [show ¬f.offset + i - g.offset < g.width by omega]

theorem put_lt {n : ℕ} (h : f.offset + f.width ≤ n) (v : ℕ) : f.put v < 2 ^ n := by
  refine Nat.lt_pow_two_of_testBit _ fun i hi => ?_
  simp [testBit_put, show ¬i - f.offset < f.width by omega]

end Field

/-- The word that has the given values in its fields. -/
def pack : List (Field × ℕ) → ℕ
  | [] => 0
  | (f, v) :: rest => f.put v ||| pack rest

variable {fields : List (Field × ℕ)} {f : Field}

/-- Bits that no field takes are zero. -/
theorem get_pack_of_apart (h : ∀ p ∈ fields, f.Apart p.1) : f.get (pack fields) = 0 := by
  induction fields with
  | nil => exact f.get_zero
  | cons p rest ih =>
    have hrest := ih fun q hq => h q (List.mem_cons_of_mem _ hq)
    rw [pack, Field.get_or, Field.get_put_of_apart (h p List.mem_cons_self), hrest, Nat.zero_or]

/-- A field is read back as it was put. -/
theorem get_pack_of_mem {v : ℕ} (hmem : (f, v) ∈ fields)
    (hapart : fields.Pairwise fun p q => p.1.Apart q.1) : f.get (pack fields) = v % 2 ^ f.width := by
  induction fields with
  | nil => cases hmem
  | cons p rest ih =>
    obtain ⟨hhead, hrest⟩ := List.pairwise_cons.1 hapart
    rw [pack, Field.get_or]
    rcases List.mem_cons.1 hmem with rfl | hmem
    · rw [Field.get_put_self, get_pack_of_apart hhead, Nat.or_zero]
    · rw [Field.get_put_of_apart (hhead _ hmem).symm, ih hmem hrest, Nat.zero_or]

/-! ## Reading a packed word -/

/-- The value of a field in a list of them. -/
def lookup (f : Field) : List (Field × ℕ) → ℕ
  | [] => 0
  | (g, v) :: rest => if f = g then v % 2 ^ f.width else lookup f rest

/-- The layout of a list of fields, in which `f` is one of them or apart from them all. -/
def Laid (f : Field) (layout : List Field) : Prop :=
  layout.Pairwise Field.Apart ∧ (f ∈ layout ∨ ∀ g ∈ layout, f.Apart g)

instance (f : Field) (layout : List Field) : Decidable (Laid f layout) :=
  inferInstanceAs (Decidable (_ ∧ _))

theorem lookup_of_not_mem (h : f ∉ fields.map Prod.fst) : lookup f fields = 0 := by
  induction fields with
  | nil => rfl
  | cons p rest ih =>
    rw [List.map_cons, List.mem_cons, not_or] at h
    rw [lookup, if_neg h.1, ih h.2]

theorem exists_lookup (h : f ∈ fields.map Prod.fst) :
    ∃ v, (f, v) ∈ fields ∧ lookup f fields = v % 2 ^ f.width := by
  induction fields with
  | nil => cases h
  | cons p rest ih =>
    obtain ⟨g, v⟩ := p
    by_cases heq : f = g
    · subst heq
      exact ⟨v, List.mem_cons_self, by rw [lookup, if_pos rfl]⟩
    · rw [List.map_cons, List.mem_cons] at h
      obtain ⟨v', hmem, hlookup⟩ := ih (h.resolve_left heq)
      exact ⟨v', List.mem_cons_of_mem _ hmem, by rw [lookup, if_neg heq, hlookup]⟩

theorem get_pack (h : Laid f (fields.map Prod.fst)) :
    f.get (pack fields) = lookup f fields := by
  obtain ⟨hapart, hmem | hall⟩ := h
  · obtain ⟨v, hv, hlookup⟩ := exists_lookup hmem
    rw [get_pack_of_mem hv (List.pairwise_map.1 hapart), hlookup]
  · by_cases hmem : f ∈ fields.map Prod.fst
    · obtain ⟨v, hv, hlookup⟩ := exists_lookup hmem
      rw [get_pack_of_mem hv (List.pairwise_map.1 hapart), hlookup]
    · rw [lookup_of_not_mem hmem]
      exact get_pack_of_apart fun p hp => hall _ (List.mem_map_of_mem hp)

end BitFields

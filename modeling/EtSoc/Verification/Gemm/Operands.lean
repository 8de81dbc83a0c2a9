import EtSoc.Model.Gemm
import Mathlib.Tactic.Ring

/-! # Operands

What the host's checks say about the operands of a product. -/

namespace EtSoc.Gemm

/-- A matrix of `rows` by `cols` numbers that passes the checks. -/
structure Operand (base stride rows cols : ℕ) : Prop where
  base_aligned : tensorAlign ∣ base
  stride_aligned : tensorAlign ∣ stride
  covers : cols * 4 ≤ stride
  fits : base + ((rows - 1) * stride + cols * 4) < 2 ^ 64

/-- The arguments of a product that the host accepts. -/
structure Accepted (args : GemmArgs) : Prop where
  m_pos : 0 < args.m.toNat
  n_pos : 0 < args.n.toNat
  k_pos : 0 < args.k.toNat
  shires_pos : 1 ≤ args.nShires.toNat
  shires_le : args.nShires.toNat ≤ 63
  a : Operand args.a.toNat args.lda.toNat args.m.toNat args.k.toNat
  b : Operand args.b.toNat args.ldb.toNat args.k.toNat args.n.toNat
  c : Operand args.c.toNat args.ldc.toNat args.m.toNat args.n.toNat

section
variable {showF32 : UInt32 → String} {matrix : String}

theorem bind_eq_ok {α : Type} {x : Except Error Unit} {f : Unit → Except Error α} {a : α} :
    (x >>= f) = .ok a ↔ x = .ok () ∧ f () = .ok a := by
  cases x with
  | ok _ => exact ⟨fun h => ⟨rfl, h⟩, fun h => h.2⟩
  | error _ => exact iff_of_false (by simp [bind, Except.bind]) (by simp)

theorem rejectIf_eq_ok {p : Prop} [Decidable p] {e : Error} : rejectIf p e = .ok () ↔ ¬p := by
  unfold rejectIf
  split <;> simp_all

theorem checkPointer_eq_ok {addr : UInt64} :
    checkPointer showF32 matrix addr = .ok () ↔ tensorAlign ∣ addr.toNat := by
  rw [checkPointer, rejectIf_eq_ok, not_not, Nat.dvd_iff_mod_eq_zero]

theorem checkStride_eq_ok {stride : UInt32} :
    checkStride showF32 matrix stride = .ok () ↔ tensorAlign ∣ stride.toNat := by
  rw [checkStride, rejectIf_eq_ok, not_not, Nat.dvd_iff_mod_eq_zero]

theorem checkExtent_eq_ok {rows cols stride : UInt32} {base : UInt64} :
    checkExtent matrix rows cols base stride = .ok () ↔ cols.toNat * 4 ≤ stride.toNat ∧
      base.toNat + ((rows.toNat - 1) * stride.toNat + cols.toNat * 4) < 2 ^ 64 := by
  simp only [checkExtent, bind_eq_ok, rejectIf_eq_ok, Nat.not_lt, Nat.not_le]

/-- A matrix passes the checks. -/
def Passes (showF32 : UInt32 → String) (rows cols : UInt32) (base : UInt64) (stride : UInt32) : Prop :=
  ∀ matrix, checkPointer showF32 matrix base = .ok () ∧ checkStride showF32 matrix stride = .ok () ∧
    checkExtent matrix rows cols base stride = .ok ()

theorem passes_iff {rows cols stride : UInt32} {base : UInt64} :
    Passes showF32 rows cols base stride ↔
      Operand base.toNat stride.toNat rows.toNat cols.toNat := by
  simp only [Passes, checkPointer_eq_ok, checkStride_eq_ok, checkExtent_eq_ok, forall_const]
  exact ⟨fun ⟨h₁, h₂, h₃, h₄⟩ => ⟨h₁, h₂, h₃, h₄⟩, fun ⟨h₁, h₂, h₃, h₄⟩ => ⟨h₁, h₂, h₃, h₄⟩⟩

/-- The host launches the kernel only with arguments that it accepts. -/
theorem accepted_of_sgemm {m n k alpha lda ldb beta ldc nShires : UInt32} {a b c available : UInt64}
    {args : GemmArgs}
    (h : sgemm showF32 m n k alpha a lda b ldb beta c ldc nShires available = .ok args) :
    Accepted args ∧ args = ⟨a, b, c, nShires.toUInt64, m, n, k, lda, ldb, ldc, alpha, beta⟩ := by
  simp only [sgemm, bind_eq_ok, rejectIf_eq_ok, checkPointer_eq_ok, checkStride_eq_ok,
    checkExtent_eq_ok, not_not, not_or] at h
  obtain ⟨⟨hm, hn, hk⟩, hshires, -, ha, hb, hc, hlda, hldb, hldc, hA, hB, hC, -, hargs⟩ := h
  obtain rfl := Except.ok.inj hargs
  have hpos : ∀ x : UInt32, x ≠ 0 → 0 < x.toNat := fun x hx =>
    Nat.pos_of_ne_zero fun h => hx (UInt32.toNat_inj.1 h)
  have hshires' : nShires.toUInt64.toNat = nShires.toNat := UInt32.toNat_toUInt64 nShires
  exact ⟨
    { m_pos := hpos m hm
      n_pos := hpos n hn
      k_pos := hpos k hk
      shires_pos := hshires'.symm ▸ hshires.1
      shires_le := hshires'.symm ▸ hshires.2
      a := ⟨ha, hlda, hA.1, hA.2⟩
      b := ⟨hb, hldb, hB.1, hB.2⟩
      c := ⟨hc, hldc, hC.1, hC.2⟩ }, rfl⟩

end

/-! ## Rows of an operand -/

variable {base stride rows cols : ℕ}

/-- The tiles of a row: where one starts it is aligned, and it ends inside the row. -/
structure RowAt (base stride rows addr : ℕ) : Prop where
  aligned : tensorAlign ∣ addr
  inRow : ∃ r < rows, base + r * stride ≤ addr ∧ addr + tensorAlign ≤ base + (r + 1) * stride
  addressable : addr + tensorAlign ≤ 2 ^ 64

theorem Operand.rowAt (h : Operand base stride rows cols) {row tile : ℕ} (hrow : row < rows)
    (htile : tile * 16 < cols) : RowAt base stride rows (base + row * stride + tile * 16 * 4) := by
  obtain ⟨β, hβ⟩ := h.base_aligned
  obtain ⟨σ, hσ⟩ := h.stride_aligned
  have hcovers := h.covers
  have hfits := h.fits
  simp only [tensorAlign] at *
  have hmul : row * stride ≤ (rows - 1) * stride := Nat.mul_le_mul_right _ (by omega)
  have hrowσ : row * stride = 64 * (row * σ) := by rw [hσ]; ring
  refine ⟨⟨β + row * σ + tile, ?_⟩, ⟨row, hrow, by omega, ?_⟩, ?_⟩
  · simp only [tensorAlign]
    omega
  · simp only [tensorAlign, Nat.succ_mul]
    omega
  · simp only [tensorAlign]
    omega

/-- The address of a tile is computed without overflow. -/
theorem Operand.tileAddr_eq (h : Operand base stride rows cols) {row tile : ℕ} (hrow : row < rows)
    (htile : tile * 16 < cols) :
    tileAddr base row stride (tile * 16) = some (base + row * stride + tile * 16 * 4) := by
  have haddr := (h.rowAt hrow htile).addressable
  simp only [tensorAlign] at haddr
  simp only [tileAddr, fits64]
  rw [if_pos (by omega), Option.bind_eq_bind, Option.bind_some, if_pos (by omega), Option.bind_some,
    if_pos (by omega), Option.bind_some, if_pos (by omega)]

/-! ## Counting tiles -/

theorem lt_divCeil_iff {x tile : ℕ} : tile < divCeil x 16 ↔ tile * 16 < x := by
  simp only [divCeil]
  omega

end EtSoc.Gemm

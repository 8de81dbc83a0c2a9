import EtSoc.Library.GrowingPool
import EtSoc.Verification.Dma.Staging
import EtSoc.Verification.Session.Heap

/-! # The pool of staging buffers -/

namespace EtSoc

open Function Program GrowingPool

/-- What the staging buffers depend on. -/
structure PoolState where
  staging : List DmaHostBuffer
  capacity : ℕ
  dram : DramInfo
  mapped : List Mapping
  taken : List Taking
  unfinished : ℕ
  nextBuf : ℕ

def Sys.poolState (s : Sys) : PoolState where
  staging := s.dev.staging
  capacity := s.dev.stagingCapacity
  dram := s.dev.dram
  mapped := s.mapped
  taken := s.taken
  unfinished := s.unfinished
  nextBuf := s.world.nextBuf

namespace PoolState

def half (v : PoolState) : ℕ := v.capacity / 2

/-- The transport maps staging buffers of exactly the size asked for. -/
def Exact (v : PoolState) : Prop :=
  ∀ m ∈ v.mapped, m.buffer.id.purpose = .staging → m.buffer.len = m.requested

/-- The staging buffers mapped so far. -/
def stagings (v : PoolState) : ℕ :=
  v.mapped.countP fun m => m.buffer.id.purpose = .staging

/-- A buffer is mapped. -/
def map (v : PoolState) (m : Mapping) : PoolState :=
  { v with mapped := m :: v.mapped, nextBuf := v.nextBuf + 1 }

variable {v : PoolState}

theorem Exact.of_map {m : Mapping} (h : (v.map m).Exact) : v.Exact :=
  fun m' hm' => h m' (List.mem_cons_of_mem _ hm')

end PoolState

/-- The buffers of a transfer are as many and as large as they should be, its chunks start at
multiples of the alignment, and consecutive chunks use different buffers. -/
structure Taking.Disciplined (t : Taking) : Prop where
  small : t.total ≤ t.capacity / 2 → ∃ first rest, t.buffers = first :: rest ∧
    t.total ≤ first.len ∧ (rest = [] ∨ ∃ second, rest = [second] ∧ second.len = t.capacity / 2)
  large : t.capacity / 2 < t.total → ∃ first second, t.buffers = [first, second] ∧
    first.len = t.capacity / 2 ∧ second.len = t.capacity / 2
  aligned : ∀ index < chunkCount t.total (stagingChunk t.buffers),
    t.alignment ∣ index * stagingChunk t.buffers
  alternate : ∀ index, index + 1 < chunkCount t.total (stagingChunk t.buffers) →
    ∀ b ∈ t.buffers[index % t.buffers.length]?, ∀ b' ∈ t.buffers[(index + 1) % t.buffers.length]?,
      b.id ≠ b'.id

/-- Buffers that are fit for the pool. -/
structure Stock (v : PoolState) (buffers : List DmaHostBuffer) : Prop where
  sized : Sized v.half (buffers.map (·.len))
  purpose : ∀ b ∈ buffers, b.id.purpose = .staging
  serial : ∀ b ∈ buffers, b.id.serial < v.nextBuf
  nodup : (buffers.map (·.id)).Nodup

/-- The same after the buffers of the pool, the record or the count changed. -/
theorem Stock.anew {v v' : PoolState} {buffers : List DmaHostBuffer} (h : Stock v buffers)
    (hcapacity : v'.capacity = v.capacity := by rfl) (hnext : v'.nextBuf = v.nextBuf := by rfl) :
    Stock v' buffers := by
  refine ⟨?_, h.purpose, hnext ▸ h.serial, h.nodup⟩
  rw [PoolState.half, hcapacity]
  exact h.sized

structure WellStocked (v : PoolState) : Prop where
  capacity : ∃ q, 1 ≤ q ∧ v.capacity = q * (2 * v.dram.alignment)
  stock : v.Exact → Stock v v.staging
  taken : v.Exact → ∀ t ∈ v.taken, t.Disciplined

/-- While no more than `n` transfers are unfinished, `K` bounds the buffers mapped and those
that `buffers` may still need. -/
structure Budget (n K cap : ℕ) (buffers : List DmaHostBuffer) (v : PoolState) : Prop where
  le : n ≤ v.unfinished
  bound : v.unfinished = n → v.capacity = cap ∧
    (v.Exact → v.stagings + budget (cap / 2) (buffers.map (·.len)) ≤ K)

variable {v : PoolState} {buffers : List DmaHostBuffer} {n K cap : ℕ}

/-! ## Buffers mapped for something else -/

theorem stagings_map (v : PoolState) (m : Mapping) :
    (v.map m).stagings = v.stagings + if m.buffer.id.purpose = .staging then 1 else 0 := by
  simp [PoolState.stagings, PoolState.map, List.countP_cons]

theorem Stock.map (h : Stock v buffers) (m : Mapping) : Stock (v.map m) buffers :=
  ⟨h.sized, h.purpose, fun b hb => (h.serial b hb).trans (Nat.lt_succ_self _), h.nodup⟩

theorem WellStocked.map (h : WellStocked v) (m : Mapping) : WellStocked (v.map m) :=
  ⟨h.capacity, fun hexact => (h.stock hexact.of_map).map m, fun hexact => h.taken hexact.of_map⟩

theorem Budget.mapOther (h : Budget n K cap buffers v) {m : Mapping}
    (hne : m.buffer.id.purpose ≠ .staging) : Budget n K cap buffers (v.map m) := by
  refine ⟨h.le, fun hn => ⟨(h.bound hn).1, fun hexact => ?_⟩⟩
  rw [stagings_map, if_neg hne]
  exact (h.bound hn).2 hexact.of_map

/-! ## Discipline -/

/-- A transfer in one chunk has nothing to align or alternate. -/
theorem disciplined_of_one {t : Taking} (hsmall : t.total ≤ t.capacity / 2)
    (hlen : ∃ first rest, t.buffers = first :: rest ∧ t.total ≤ first.len ∧
      (rest = [] ∨ ∃ second, rest = [second] ∧ second.len = t.capacity / 2))
    (hchunk : t.total ≤ stagingChunk t.buffers) : t.Disciplined := by
  have hone := chunkCount_le_one hchunk (Nat.le_max_right ..)
  refine ⟨fun _ => hlen, fun hlarge => by omega, fun index hindex => ?_, fun index hindex => by omega⟩
  rw [show index = 0 by omega, Nat.zero_mul]
  exact Nat.dvd_zero _

theorem disciplined_of_two {total align q : ℕ} {first second : DmaHostBuffer}
    (hcap : cap / 2 = q * align) (hpos : 1 ≤ cap / 2) (hfirst : first.len = cap / 2)
    (hsecond : second.len = cap / 2) (hne : first.id ≠ second.id) :
    (⟨total, [first, second], cap, align⟩ : Taking).Disciplined := by
  have hchunk : stagingChunk [first, second] = q * align := by
    simp [stagingChunk, hfirst, hsecond, ← hcap, hpos]
  refine ⟨fun hsmall => ⟨first, [second], rfl, by rwa [hfirst], .inr ⟨second, rfl, hsecond⟩⟩,
    fun _ => ⟨first, second, rfl, hfirst, hsecond⟩, fun index _ => ?_, fun index _ => ?_⟩
  · rw [hchunk, ← Nat.mul_assoc]
    exact Nat.dvd_mul_left ..
  · have hlen : [first, second].length = 2 := rfl
    simp only [hlen]
    rcases Nat.mod_two_eq_zero_or_one index with heven | hodd
    · simp [heven, show (index + 1) % 2 = 1 by omega, hne]
    · simp [hodd, show (index + 1) % 2 = 0 by omega, hne.symm]

/-- What taking needs of the buffers for a transfer of `total` bytes. -/
theorem disciplined_of_reached {total align q : ℕ} (hcap : cap = q * (2 * align)) (hq : 1 ≤ q)
    (halign : 1 ≤ align) (hsized : Sized (cap / 2) (buffers.map (·.len)))
    (hnodup : (buffers.map (·.id)).Nodup)
    (hreached : Reached (min total (cap / 2)) (if cap / 2 < total then 2 else 1)
      (buffers.map (·.len))) :
    (⟨total, buffers, cap, align⟩ : Taking).Disciplined := by
  have hhalf : cap / 2 = q * align := by
    rw [hcap, Nat.mul_left_comm]
    exact Nat.mul_div_cancel_left _ (by decide)
  have hpos : 1 ≤ cap / 2 := hhalf ▸ Nat.mul_pos hq halign
  obtain ⟨hlen, hfirst⟩ := hreached
  rcases buffers with _ | ⟨first, _ | ⟨second, _ | ⟨third, rest⟩⟩⟩
  · split at hlen <;> simp at hlen
  · by_cases hlarge : cap / 2 < total
    · simp [hlarge] at hlen
    · have hle : min total (cap / 2) ≤ first.len := hfirst _ (by simp [hlarge])
      rw [Nat.min_eq_left (Nat.le_of_not_lt hlarge)] at hle
      exact disciplined_of_one (Nat.le_of_not_lt hlarge) ⟨first, [], rfl, hle, .inl rfl⟩
        (hle.trans (Nat.le_max_left ..))
  · obtain ⟨hone, htwo⟩ := hsized
    have hne : first.id ≠ second.id := by simpa using hnodup
    exact disciplined_of_two hhalf hpos hone htwo hne
  · exact hsized.elim

/-! ## What a transfer does -/

/-- What the pool keeps between calls; the budget only as far as `p` asks for it. -/
structure Pooled (p : Prop) (n K cap : ℕ) (v : PoolState) : Prop where
  pool : WellStocked v
  budget : p → Budget n K cap v.staging v

/-- The state while a transfer holds `buffers`, having found the pool in state `v₀`. -/
structure Lent (p : Prop) (n K cap : ℕ) (v₀ : PoolState) (buffers : List DmaHostBuffer)
    (v : PoolState) : Prop where
  empty : v.staging = []
  capacity : v.capacity = v₀.capacity
  dram : v.dram = v₀.dram
  pool : WellStocked v
  stock : v.Exact → Stock v buffers
  budget : p → Budget n K cap buffers v

variable {p : Prop} {v₀ : PoolState}

theorem Budget.vacuous {others : List DmaHostBuffer} (h : Budget (n + 1) K cap buffers v) :
    Budget n K cap others v :=
  ⟨Nat.le_of_succ_le h.le, fun hn => absurd h.le (by omega)⟩

/-- The buffers are lost. -/
theorem Lent.lost (h : Lent p (n + 1) K cap v₀ buffers v) : Pooled p n K cap v :=
  ⟨h.pool, fun hp => (h.budget hp).vacuous⟩

/-- Buffers are put back. -/
theorem Lent.back (h : Lent p n K cap v₀ buffers v) :
    Pooled p n K cap { v with staging := buffers } :=
  ⟨⟨h.pool.capacity, fun hexact => (h.stock hexact).anew,
    h.pool.taken⟩, fun hp => ⟨(h.budget hp).le, (h.budget hp).bound⟩⟩

theorem numb_poolState (Q : PoolState → Prop) :
    Numb (fun _ => True) (fun _ => True) fun s => Q s.poolState where
  waiting := trivial
  panics := fun _ _ => trivial
  act := fun s script ds h => by
    have hview : Sys.poolState { s with script := script, world := s.world.steps ds } =
        s.poolState := by simp only [Sys.poolState, World.steps_nextBuf]
    rwa [hview]
  fill := fun _ _ _ h => h
  tags := fun _ _ _ _ _ h => h
  log := fun _ _ h => h
  cut := fun _ _ h => h
  pop := fun _ _ h => h
  offer := fun _ _ _ h => h
  accept := fun _ _ _ _ _ h => h
  peak := fun _ _ _ h => h

theorem streaming_poolState (Q : PoolState → Prop) :
    Streaming (fun _ => True) fun s => Q s.poolState :=
  (numb_poolState Q).streaming (fun _ _ h => h) fun _ _ _ _ _ =>
    (numb_poolState Q).pushDmaStaged (fun _ _ h => h) (fun _ _ h => h) trivial (fun _ => trivial)
      _ _ _ _ _

theorem dmaHostBuffer_pool (P : PoolState → Prop) (size : ℕ) :
    Triple (fun s => P s.poolState) (dmaHostBuffer .staging size)
      ⟨fun b s => ∃ v, P v ∧ b.id = ⟨.staging, v.nextBuf⟩ ∧ s.poolState = v.map ⟨b, size⟩,
        fun _ s => P s.poolState, fun _ s => P s.poolState⟩ := by
  have hconsult : Triple (fun s => P s.poolState) consult
      ⟨fun _ s => P s.poolState, fun _ s => P s.poolState, fun _ s => P s.poolState⟩ :=
    (numb_poolState P).consult.conseq (fun _ h => h) (fun _ _ h => h) (fun _ _ h => h) fun _ h => h.2
  refine .bind hconsult fun answer => .read_bind fun serial => ?_
  cases answer with
  | fail e => exact .throw fun _ h => h.1
  | _ =>
    rintro s ⟨hs, rfl⟩
    exact ⟨s.poolState, hs, rfl, rfl⟩

/-- A buffer takes the place of the `index`th one. -/
def replaced (buffers : List DmaHostBuffer) (index : ℕ) (b : DmaHostBuffer) : List DmaHostBuffer :=
  (buffers.eraseIdx index).insertIdx index b

theorem map_len_replaced (buffers : List DmaHostBuffer) (index : ℕ) (b : DmaHostBuffer) :
    (replaced buffers index b).map (·.len) =
      ((buffers.map (·.len)).eraseIdx index).insertIdx index b.len := by
  rw [replaced, List.map_insertIdx, List.eraseIdx_map]

/-- A buffer just mapped is fit for the pool. -/
theorem Stock.replace {index size : ℕ} {b : DmaHostBuffer} (h : Stock v buffers)
    (hid : b.id = ⟨.staging, v.nextBuf⟩) (hindex : index ≤ (buffers.eraseIdx index).length)
    (hsized : Sized v.half ((replaced buffers index b).map (·.len))) :
    Stock (v.map ⟨b, size⟩) (replaced buffers index b) := by
  have hsub : ∀ c ∈ buffers.eraseIdx index, c ∈ buffers := fun c hc => List.mem_of_mem_eraseIdx hc
  have hmem : ∀ c, c ∈ replaced buffers index b ↔ c = b ∨ c ∈ buffers.eraseIdx index :=
    fun c => List.mem_insertIdx hindex
  refine ⟨hsized, fun c hc => ?_, fun c hc => ?_, ?_⟩
  · rcases (hmem c).1 hc with rfl | hc
    · rw [hid]
    · exact h.purpose c (hsub c hc)
  · rcases (hmem c).1 hc with rfl | hc
    · rw [hid]
      exact Nat.lt_succ_self _
    · exact (h.serial c (hsub c hc)).trans (Nat.lt_succ_self _)
  · refine ((List.perm_insertIdx b _ hindex).map (·.id)).symm.nodup (List.nodup_cons.2 ⟨?_, ?_⟩)
    · intro hin
      obtain ⟨c, hc, heq⟩ := List.mem_map.1 hin
      have hlt := h.serial c (hsub c hc)
      simp only at heq
      rw [heq, hid] at hlt
      exact Nat.lt_irrefl _ hlt
    · exact ((List.eraseIdx_sublist ..).map _).nodup h.nodup

/-- One round of growing. -/
theorem Lent.replace {required index : ℕ} {b : DmaHostBuffer} (h : Lent p n K cap v₀ buffers v)
    (hreached : v.Exact → Reached required index (buffers.map (·.len)))
    (hle : required ≤ v₀.half) (hindex : index = 0 ∨ index = 1 ∧ required = v₀.half)
    (hlack : ¬∃ b ∈ buffers[index]?, required ≤ b.len) (hid : b.id = ⟨.staging, v.nextBuf⟩) :
    Lent p n K cap v₀ (replaced buffers index b) (v.map ⟨b, grown v₀.half required⟩) ∧
      ((v.map ⟨b, grown v₀.half required⟩).Exact → Reached required (index + 1)
        ((replaced buffers index b).map (·.len))) := by
  have hhalf : v.half = v₀.half := by rw [PoolState.half, h.capacity, PoolState.half]
  have hstaging : b.id.purpose = .staging := by rw [hid]
  have hgrow := fun hexact : (v.map ⟨b, grown v₀.half required⟩).Exact => by
    have hlen : b.len = grown v₀.half required := hexact _ List.mem_cons_self hstaging
    have hsized := (h.stock hexact.of_map).sized
    rw [hhalf] at hsized
    have := hsized.grow (hreached hexact.of_map) hle hindex fun size hsize => by
      obtain ⟨c, hc, rfl⟩ : ∃ c, buffers[index]? = some c ∧ c.len = size := by
        simpa [List.getElem?_map] using hsize
      exact Nat.lt_of_not_le fun hge => hlack ⟨c, hc, hge⟩
    rw [← hlen, ← map_len_replaced] at this
    exact this
  refine ⟨⟨h.empty, h.capacity, h.dram, h.pool.map _, fun hexact => ?_, fun hp => ?_⟩,
    fun hexact => (hgrow hexact).2.2.1⟩
  · obtain ⟨hlen, hsized, -⟩ := hgrow hexact
    rw [List.eraseIdx_map, List.length_map] at hlen
    exact (h.stock hexact.of_map).replace hid hlen (hhalf ▸ hsized)
  · refine ⟨(h.budget hp).le, fun hn => ⟨((h.budget hp).bound hn).1, fun hexact => ?_⟩⟩
    obtain ⟨hcap, hbound⟩ := (h.budget hp).bound hn
    have hbudget := (hgrow hexact).2.2.2
    have hv₀ : v₀.half = cap / 2 := by rw [← hhalf, PoolState.half, hcap]
    rw [stagings_map, if_pos hstaging]
    rw [hv₀] at hbudget
    have := hbound hexact.of_map
    omega

/-- One buffer could not be replaced. -/
theorem Lent.torn (h : Lent p (n + 1) K cap v₀ buffers v) (index : ℕ) :
    Pooled p n K cap { v with staging := buffers.eraseIdx index } := by
  have hsub : (buffers.eraseIdx index).Sublist buffers := List.eraseIdx_sublist ..
  refine ⟨⟨h.pool.capacity, fun hexact => ?_, h.pool.taken⟩, fun hp => ?_⟩
  · have hstock := h.stock hexact
    refine ⟨?_, fun b hb => hstock.purpose b (hsub.subset hb),
      fun b hb => hstock.serial b (hsub.subset hb), (hsub.map _).nodup hstock.nodup⟩
    have := hstock.sized.eraseIdx index
    rwa [List.eraseIdx_map] at this
  · have hbudget : Budget n K cap (buffers.eraseIdx index) v := (h.budget hp).vacuous
    exact ⟨hbudget.le, hbudget.bound⟩

/-- The first `index` buffers of a transfer are as they should be. -/
def Restocked (p : Prop) (n K cap : ℕ) (v₀ : PoolState) (required index : ℕ)
    (buffers : List DmaHostBuffer) (s : Sys) : Prop :=
  Lent p n K cap v₀ buffers s.poolState ∧
    (s.poolState.Exact → Reached required index (buffers.map (·.len)))

theorem growStaging_pool {required : ℕ} (hle : required ≤ v₀.half) (m : ℕ) : ∀ index buffers,
    index + m ≤ 1 ∨ index + m = 2 ∧ required = v₀.half →
    Triple (Restocked p (n + 1) K cap v₀ required index buffers)
      (growStaging required v₀.half m index buffers)
      ⟨Restocked p (n + 1) K cap v₀ required (index + m), fun _ s => Pooled p n K cap s.poolState,
        fun _ s => Pooled p n K cap s.poolState⟩ := by
  induction m with
  | zero => exact fun _ _ _ => .pure fun _ h => h
  | succ m ih =>
    intro index buffers hindex
    rw [show index + (m + 1) = index + 1 + m by omega] at hindex ⊢
    refine .ite (fun henough => (ih _ buffers hindex).pre fun s hs => ⟨hs.1, fun hexact => ?_⟩)
      fun hlack => ?_
    · obtain ⟨b, hb, hlen⟩ := henough
      have hlt := (List.getElem?_eq_some_iff.1 hb).1
      have hreached := hs.2 hexact
      refine ⟨by simpa using Nat.succ_le_of_lt hlt, fun size hsize => ?_⟩
      rw [List.take_add_one, List.mem_append] at hsize
      rcases hsize with hsize | hsize
      · exact hreached.2 size hsize
      · rw [List.getElem?_map, hb] at hsize
        simp only [Option.map_some, Option.toList_some, List.mem_singleton] at hsize
        exact hsize ▸ hlen
    · refine .modify_bind (R := Restocked p (n + 1) K cap v₀ required index buffers) (fun _ hs => hs) ?_
      refine .attempt_bind ((dmaHostBuffer_pool (fun v => Lent p (n + 1) K cap v₀ buffers v ∧
        (v.Exact → Reached required index (buffers.map DmaHostBuffer.len))) _).conseq (fun _ h => h)
          (fun _ _ h => h) (fun _ _ h => h) fun _ hs => hs.1.lost) (fun b => ?_) fun e => ?_
      · refine (ih _ (replaced buffers index b) hindex).pre fun s ⟨v, ⟨hlent, hreached⟩, hid, hv⟩ => ?_
        unfold Restocked
        rw [hv]
        exact hlent.replace hreached hle (by omega) hlack hid
      · exact .modify_bind (R := fun s => Pooled p n K cap s.poolState) (fun _ hs => hs.1.torn index)
          (.throw fun _ hs => hs)

/-- The pool is emptied for a transfer. -/
theorem Pooled.lent (h : Pooled p n K cap v) :
    Lent p (n + 1) K cap v v.staging { v with staging := [], unfinished := v.unfinished + 1 } where
  empty := rfl
  capacity := rfl
  dram := rfl
  pool := ⟨h.pool.capacity, fun _ => ⟨trivial, by simp, by simp, List.nodup_nil⟩, h.pool.taken⟩
  stock hexact := (h.pool.stock hexact).anew
  budget hp := ⟨Nat.succ_le_succ (h.budget hp).le,
    fun hn => (h.budget hp).bound (Nat.succ_injective hn)⟩

/-- The buffers of a transfer are recorded. -/
theorem Lent.record {total : ℕ} (h : Lent p n K cap v₀ buffers v) (hpool : WellStocked v₀)
    (hreached : v.Exact → Reached (min total v₀.half) (if v₀.half < total then 2 else 1)
      (buffers.map (·.len))) :
    Lent p n K cap v₀ buffers
      { v with taken := ⟨total, buffers, v₀.capacity, v₀.dram.alignment⟩ :: v.taken } where
  empty := h.empty
  capacity := h.capacity
  dram := h.dram
  pool := by
    refine ⟨h.pool.capacity, fun hexact => (h.pool.stock hexact).anew,
      fun hexact t ht => ?_⟩
    rcases List.mem_cons.1 ht with rfl | ht
    · obtain ⟨q, hq, hcap⟩ := hpool.capacity
      have hstock := h.stock hexact
      have hsized := hstock.sized
      rw [PoolState.half, h.capacity] at hsized
      exact disciplined_of_reached hcap hq v₀.dram.one_le_alignment hsized hstock.nodup
        (hreached hexact)
    · exact h.pool.taken hexact t ht
  stock hexact := (h.stock hexact).anew
  budget hp := ⟨(h.budget hp).le, (h.budget hp).bound⟩

theorem takeStaging_pool (total : ℕ) :
    Triple (fun s => Pooled p n K cap s.poolState) (takeStaging total)
      ⟨fun buffers s => ∃ v₀, Lent p (n + 1) K cap v₀ buffers s.poolState,
        fun _ s => Pooled p n K cap s.poolState, fun _ s => Pooled p n K cap s.poolState⟩ := by
  refine .fix fun s₀ hs₀ => .read_bind fun dev => .intro (p := dev = s₀.dev)
    (fun s hs => by rw [← hs.2, hs.1]) fun hdev => ?_
  subst hdev
  refine .modify_bind (R := fun s => s = { s₀ with dev := { s₀.dev with staging := [] } })
    (fun s hs => by rw [hs.1]) (.modify_bind (R := Restocked p (n + 1) K cap s₀.poolState
      (min total s₀.poolState.half) 0 s₀.dev.staging) ?_ ?_)
  · rintro _ rfl
    exact ⟨hs₀.lent, fun _ => ⟨Nat.zero_le _, by simp⟩⟩
  · refine .bind (growStaging_pool (Nat.min_le_right ..) _ 0 s₀.dev.staging ?_) fun buffers =>
      .modify_bind (R := fun s => ∃ v₀, Lent p (n + 1) K cap v₀ buffers s.poolState)
        (fun s hs => ⟨s₀.poolState, hs.1.record hs₀.pool ?_⟩) (.pure fun _ h => h)
    · change 0 + (if s₀.poolState.half < total then 2 else 1) ≤ 1 ∨
        0 + (if s₀.poolState.half < total then 2 else 1) = 2 ∧
          min total s₀.poolState.half = s₀.poolState.half
      split
      · exact .inr ⟨rfl, Nat.min_eq_right (by omega)⟩
      · exact .inl (by omega)
    · have hreached := hs.2
      rw [Nat.zero_add] at hreached
      exact hreached

/-- A transfer succeeded. -/
theorem Lent.finish (h : Lent p (n + 1) K cap v₀ buffers v) :
    Lent p n K cap v₀ buffers { v with unfinished := v.unfinished - 1 } where
  empty := h.empty
  capacity := h.capacity
  dram := h.dram
  pool := ⟨h.pool.capacity, fun hexact => (h.pool.stock hexact).anew, h.pool.taken⟩
  stock hexact := (h.stock hexact).anew
  budget hp := by
    have hle := (h.budget hp).le
    exact ⟨Nat.le_sub_one_of_lt hle, fun hn => (h.budget hp).bound (by simp only at hn; omega)⟩

/-- A transfer failed, and what becomes of its buffers no longer matters to the budget. -/
theorem Lent.fail (h : Lent p (n + 1) K cap v₀ buffers v) : Lent p n K cap v₀ buffers v :=
  ⟨h.empty, h.capacity, h.dram, h.pool, h.stock, fun hp => (h.budget hp).vacuous⟩

theorem putBack_pool (buffers : List DmaHostBuffer) :
    Triple (Rested fun s => Lent p n K cap v₀ buffers s.poolState) (do
      let dev ← getDev
      unmap dev.staging
      modifyDev fun d => { d with staging := buffers })
      (Calls (fun _ => True) fun s => Pooled p n K cap s.poolState) :=
  .read_bind fun _ => .modify_bind (R := Rested fun s => Lent p n K cap v₀ buffers s.poolState)
    (fun _ hs => hs.1) (.modify fun _ hs => ⟨hs.1.back, hs.2⟩)

/-- The buffers of a transfer are put back or leaked. -/
theorem restoreStaging_pool (buffers : List DmaHostBuffer) (result : Except Error Unit) :
    Triple (fun s => Lent p (n + 1) K cap v₀ buffers s.poolState) (restoreStaging buffers result)
      (Calls (fun _ => True) fun s => Pooled p n K cap s.poolState) := by
  have habandon : ∀ Q : PoolState → Prop, Triple (fun s => Q s.poolState) abandonPending
      ⟨fun _ => Rested fun s => Q s.poolState,
        fun _ => Rested fun s => Pooled p n K cap s.poolState,
        fun _ s => True ∧ Pooled p n K cap s.poolState⟩ :=
    fun Q => (streaming_poolState Q).abandonPending.conseq (fun _ h => h) (fun _ _ h => h)
      (fun _ _ h => h.elim) fun _ h => h.elim
  cases result with
  | ok u =>
    refine .modify_bind (R := fun s => Lent p n K cap v₀ buffers s.poolState)
      (fun _ hs => hs.finish) (.bind (habandon _) fun _ => ?_)
    exact .ite (fun hleak => by simp [mustLeak] at hleak) fun _ => putBack_pool buffers
  | error e =>
    refine .modify_bind (R := fun s => Lent p (n + 1) K cap v₀ buffers s.poolState)
      (fun _ hs => hs) (.bind (habandon _) fun _ => .ite (fun _ => ?_) fun _ => ?_)
    · exact .pure fun _ hs => ⟨hs.1.lost, hs.2⟩
    · exact (putBack_pool buffers).pre fun _ hs => ⟨hs.1.fail, hs.2⟩

theorem aloof_pending : Aloof (fun _ => True) fun s => s.pending = [] where
  waiting := trivial
  panics := fun _ _ => trivial
  act := fun _ _ _ h => h
  fill := fun _ _ _ h => h
  map := fun _ _ _ _ h => h
  unmapped := fun _ _ h => h
  staging := fun _ _ _ h => h
  taken := fun _ _ _ h => h

theorem staged_pool {α : Type} {total : ℕ} {transfer : List DmaHostBuffer → M α}
    (ht : ∀ (Q : PoolState → Prop) buffers, Triple (fun s => Q s.poolState) (transfer buffers)
      (Always (fun _ => True) fun s => Q s.poolState)) :
    Triple (Rested fun s => Pooled p n K cap s.poolState) (staged total transfer)
      (Calls (fun _ => True) fun s => Pooled p n K cap s.poolState) := by
  refine .bind setPending_nil fun _ => .bind (((takeStaging_pool total).both
    (aloof_pending.takeStaging total)).conseq (fun _ h => h)
      (fun _ s hs => hs.1) (fun _ _ h => h) fun _ hs => ⟨trivial, hs.1⟩)
    fun buffers => .exists_pre fun v₀ => ?_
  refine .bind (R := fun _ s => Lent p (n + 1) K cap v₀ buffers s.poolState)
    (.attempt ((ht (Lent p (n + 1) K cap v₀ buffers) buffers).conseq (fun _ h => h) (fun _ _ h => h)
      (fun _ _ h => h) fun _ hs => ⟨trivial, hs.2.lost⟩)) fun result => ?_
  exact .bind (restoreStaging_pool _ _) fun _ => .ofExcept (fun _ _ _ h => h) fun _ _ _ h => h

/-- Whole transfers keep the pool in order. -/
theorem staging_pool (p : Prop) (n K cap : ℕ) :
    Staging (fun _ => True) fun s => Pooled p n K cap s.poolState where
  toStreaming := streaming_poolState _
  h2dStaged _ _ _ _ := .ite (fun _ => .pure fun _ h => h) fun _ =>
    staged_pool fun Q _ => (streaming_poolState Q).h2dPipeline _ _ _ _ _
  memcpyD2hOpts _ _ _ := .ite (fun _ => .pure fun _ h => h) fun _ =>
    staged_pool fun Q _ => (streaming_poolState Q).d2hPipeline _ _ _ _

end EtSoc

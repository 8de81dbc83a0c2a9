import EtSoc.Verification.Session.Deliveries
import EtSoc.Verification.Session.Pool

/-! # The staging buffers over a session -/

namespace EtSoc

open Function Program GrowingPool

variable {p : Prop} {n K cap : ℕ}

/-! ## Calls that leave the pool alone -/

theorem calm_poolState {Q : PoolState → Prop}
    (hmap : ∀ v m, m.buffer.id.purpose ≠ .staging → Q v → Q (v.map m)) :
    Calm (fun _ => True) (fun _ => True) (fun _ => True) fun s => Q s.poolState where
  toNumb := numb_poolState Q
  mapOther s _ m hne h := hmap s.poolState m hne h
  unmapped _ _ h := h
  pending _ _ h := h
  push := (streaming_poolState Q).push
  slots _ _ _ _ h := h
  addr _ _ _ _ := trivial
  argsSlot _ := rested_stops (argsSlot_triple trivial (fun _ _ _ hs => hs) fun _ _ _ hs _ => hs)

theorem sedate_poolState {Q : PoolState → Prop}
    (hmap : ∀ v m, m.buffer.id.purpose ≠ .staging → Q v → Q (v.map m)) :
    Sedate (fun _ => True) (fun _ => True) (fun _ => True) fun _ s => Q s.poolState where
  calm _ := calm_poolState hmap
  zero := trivial
  timeout _ _ _ h := h
  alloc _ _ := rested_stops (alloc_triple trivial fun _ _ hs _ => hs)
  allocMark _ := .read_bind fun _ => .modify_bind (R := Rested fun s => Q s.poolState)
    (fun _ hs => hs.1) (.pure fun _ h => h)
  resetTo _ _ _ _ := by
    have hforget : ∀ buffers p, Triple (Rested fun s => Q s.poolState) (do
        unmap buffers
        modifyDev fun d => { d with argsSlots := d.argsSlots.filter p })
        (Calls (fun _ => True) fun s => Q s.poolState) := fun _ _ =>
      .modify_bind (R := Rested fun s => Q s.poolState) (fun _ hs => hs) (.modify fun _ hs => hs)
    refine .read_bind fun dev => .pre (P := Rested fun s => Q s.poolState) ?_ fun _ h => h.1
    exact .ite (fun _ => .modify_bind (R := Rested fun s => Q s.poolState) (fun _ hs => hs)
      (.modify_bind (R := Rested fun s => Q s.poolState) (fun _ hs => hs) (hforget _ _)))
        fun _ => hforget _ _

/-! ## All calls -/

theorem Pooled.mapOther {v : PoolState} (h : Pooled p n K cap v) {m : Mapping}
    (hne : m.buffer.id.purpose ≠ .staging) : Pooled p n K cap (v.map m) :=
  ⟨h.pool.map m, fun hp => (h.budget hp).mapOther hne⟩

/-- Loading a kernel keeps what transfers keep and the allocator does not matter to. -/
theorem Staging.loadKernel {Q : Sys → Prop} (h : Staging (fun _ => True) Q)
    (hloaded : ∀ s next kernelEnd heap, Q s →
      Q { s with dev := { s.dev with next := next, kernelEnd := kernelEnd }, heap := heap })
    (image : List UInt8) : Triple (Rested Q) (loadKernel image) (Calls (fun _ => True) Q) := by
  refine .bind (R := fun _ => Rested Q) (.ofExcept (fun _ _ _ hs => hs) fun _ _ _ hs => hs)
    fun elf => .read_bind fun dev => .pre (P := Rested Q) ?_ fun _ h => h.1
  refine .bind (u64Add_triple fun s hs => ⟨trivial, hs.1⟩) fun regionEnd => .and_pre fun ⟨hregion, _⟩ => ?_
  subst hregion
  refine .bind (checkSegments_triple _ (fun _ _ _ s hs => ⟨trivial, hs.1⟩) (fun _ _ hs => hs) _)
    fun occupied => .and_pre fun _ => .bind (h.loadSegments image _) fun _ => ?_
  refine .bind (alignUpChecked_triple fun s hs => ⟨trivial, hs.1⟩) fun aligned =>
    .and_pre fun _ s hs => ?_
  exact ⟨hloaded s _ _ _ hs.1, hs.2⟩

theorem settled_pool (p : Prop) (n K cap : ℕ) :
    Settled (fun _ => True) (fun _ => True) (fun _ => True)
      fun _ s => Pooled p n K cap s.poolState where
  toSedate := sedate_poolState fun _ _ hne h => h.mapOther hne
  transfers _ := staging_pool p n K cap
  loadKernel _ := (staging_pool p n K cap).loadKernel fun _ _ _ _ h => h

/-- A new capacity is a multiple of twice the alignment, and the pool is emptied. -/
theorem steadfast_pool : Steadfast (fun _ => True) (fun _ => True) (fun _ => True)
    fun _ s => Pooled False 0 0 0 s.poolState where
  toSettled := settled_pool False 0 0 0
  setStagingCapacity _ bytes := by
    refine .read_bind fun dev => .modify_bind (R := Rested fun s => Pooled False 0 0 0 s.poolState)
      (fun _ hs => hs.1) (.modify fun s hs => ⟨⟨⟨?_, fun _ => ?_, hs.1.pool.taken⟩, False.elim⟩, hs.2⟩)
    · exact ⟨_, Nat.le_max_right .., rfl⟩
    · exact ⟨trivial, by simp [Sys.poolState], by simp [Sys.poolState], List.nodup_nil⟩

/-- There are at most two buffers in the pool, each of at most half the capacity. -/
structure PoolState.Modest (v : PoolState) : Prop where
  few : v.staging.length ≤ 2
  each : ∀ b ∈ v.staging, b.len ≤ v.capacity / 2
  together : (v.staging.map (·.len)).sum ≤ v.capacity

theorem Stock.modest {v : PoolState} (h : Stock v v.staging) : v.Modest := by
  obtain ⟨hfew, heach⟩ := h.sized.few
  exact ⟨by simpa using hfew, fun b hb => heach _ (List.mem_map_of_mem hb),
    h.sized.sum_le.trans (Nat.mul_div_le ..)⟩

/-! ## Transfers that succeed -/

section
variable {α : Type}

/-- If the program returns a value, `n` transfers are unfinished. -/
def Leaves (n : ℕ) : Post Sys Error α := Returns fun _ s => s.unfinished = n

theorem streaming_unfinished (n : ℕ) : Streaming (fun _ => True) fun s => s.unfinished = n :=
  streaming_poolState fun v => v.unfinished = n

theorem growStaging_leaves (required half m : ℕ) : ∀ index buffers,
    Triple (fun s => s.unfinished = n) (growStaging required half m index buffers) (Leaves n) := by
  induction m with
  | zero => exact fun _ _ => .pure fun _ h => h
  | succ m ih =>
    refine fun index buffers => .ite (fun _ => ih _ _) fun _ =>
      .modify_bind (R := fun s => s.unfinished = n) (fun _ h => h) ?_
    refine .attempt_bind ((dmaHostBuffer_pool (fun v => v.unfinished = n) _).conseq (fun _ h => h)
      (fun _ _ h => h) (fun _ _ _ => trivial) fun _ _ => trivial) (fun b => ?_) fun e =>
        .modify_bind (R := fun _ => True) (fun _ _ => trivial) (.throw fun _ _ => trivial)
    refine (ih _ _).pre fun s ⟨v, hv, _, hs⟩ => ?_
    change s.poolState.unfinished = n
    rw [hs]
    exact hv

theorem takeStaging_leaves (total : ℕ) :
    Triple (fun s => s.unfinished = n) (takeStaging total) (Leaves (n + 1)) :=
  .read_bind fun _ => .modify_bind (R := fun s => s.unfinished = n) (fun _ h => h.1)
    (.modify_bind (R := fun s => s.unfinished = n + 1) (fun _ h => congrArg (· + 1) h)
      (.bind (growStaging_leaves _ _ _ _ _) fun _ =>
        .modify_bind (R := fun s => s.unfinished = n + 1) (fun s (h : s.unfinished = n + 1) => h)
          (.pure fun s (h : s.unfinished = n + 1) => h)))

theorem restoreStaging_leaves (buffers : List DmaHostBuffer) :
    Triple (fun s => s.unfinished = n + 1) (restoreStaging buffers (.ok ())) (Leaves n) := by
  refine .modify_bind (R := fun s => s.unfinished = n) (fun _ h => congrArg (· - 1) h) (.bind
    ((streaming_unfinished n).abandonPending.conseq (fun _ h => h) (fun _ _ h => h.1)
      (fun _ _ h => h.elim) fun _ h => h.elim) fun _ => .ite (fun _ => .pure fun _ h => h) fun _ =>
        .read_bind fun _ => .modify_bind (R := fun s => s.unfinished = n) (fun _ h => h.1)
          (.modify fun s (h : s.unfinished = n) => h))

theorem staged_leaves {total : ℕ} {transfer : List DmaHostBuffer → M α}
    (ht : ∀ buffers, Triple (fun s => s.unfinished = n + 1) (transfer buffers)
      (Always (fun _ => True) fun s => s.unfinished = n + 1)) :
    Triple (fun s => s.unfinished = n) (staged total transfer) (Leaves n) := by
  refine .modify_bind (R := fun s => s.unfinished = n) (fun _ h => h)
    (.bind (takeStaging_leaves total) fun buffers => ?_)
  refine .attempt_bind ((ht buffers).conseq (fun _ h => h) (fun _ _ h => h) (fun _ _ h => h)
    fun _ _ => trivial) (fun a => .bind (restoreStaging_leaves buffers) fun _ => .pure fun _ h => h)
      fun e => .bind (R := fun _ _ => True) .returns fun _ => .throw fun _ _ => trivial

theorem h2dStaged_leaves (total dst : ℕ) (opts : DmaOptions) (produce : Produce) :
    Triple (fun s => s.unfinished = n) (h2dStaged total dst opts produce) (Leaves n) :=
  .ite (fun _ => .pure fun _ h => h) fun _ => staged_leaves fun _ =>
    (streaming_unfinished _).h2dPipeline _ _ _ _ _

theorem memcpyD2h_leaves (src total : ℕ) (opts : DmaOptions) :
    Triple (fun s => s.unfinished = n) (memcpyD2hOpts src total opts) (Leaves n) :=
  .ite (fun _ => .pure fun _ h => h) fun _ => staged_leaves fun _ =>
    (streaming_unfinished _).d2hPipeline _ _ _ _

theorem u64Add_leaves (a b : ℕ) : Triple (fun s => s.unfinished = n) (u64Add a b) (Leaves n) :=
  .ite (fun _ => .pure fun _ h => h) fun _ => .panic fun _ _ => trivial

theorem clearTail_leaves (addr tail m : ℕ) : ∀ done,
    Triple (fun s => s.unfinished = n) (clearTail addr tail m done) (Leaves n) := by
  induction m with
  | zero => exact fun _ => .pure fun _ h => h
  | succ m ih =>
    exact fun done => .ite (fun _ => .bind (u64Add_leaves _ _) fun _ =>
      .bind (h2dStaged_leaves _ _ _ _) fun _ => ih _) fun _ => .pure fun _ h => h

theorem loadSegments_leaves (image : List UInt8) (segs : List Elf.LoadSegment) :
    Triple (fun s => s.unfinished = n) (loadSegments image segs) (Leaves n) := by
  induction segs with
  | nil => exact .pure fun _ h => h
  | cons seg segs ih =>
    refine .bind (R := fun _ s => s.unfinished = n) (.ite (fun _ => h2dStaged_leaves _ _ _ _) fun _ =>
      .pure fun _ h => h) fun _ => .bind (R := fun _ s => s.unfinished = n) ?_ fun _ => ih
    exact .ite (fun _ => .bind (u64Add_leaves _ _) fun _ => clearTail_leaves _ _ _ _) fun _ =>
      .pure fun _ h => h

theorem loadKernel_leaves (image : List UInt8) :
    Triple (fun s => s.unfinished = n) (loadKernel image) (Leaves n) := by
  refine .bind (R := fun _ s => s.unfinished = n) (.ofExcept (fun _ _ _ h => h) fun _ _ _ _ => trivial)
    fun elf => .read_bind fun dev => .pre (P := fun s => s.unfinished = n) ?_ fun _ h => h.1
  refine .bind (u64Add_triple fun _ _ => trivial) fun regionEnd => .and_pre fun ⟨hregion, _⟩ => ?_
  subst hregion
  refine .bind (checkSegments_triple _ (fun _ _ _ _ _ => trivial) (fun _ _ _ => trivial) _)
    fun occupied => .and_pre fun _ => .bind (loadSegments_leaves image _) fun _ => ?_
  exact .bind (alignUpChecked_triple fun _ _ => trivial) fun aligned => .and_pre fun _ _ h => h

theorem allocArray_leaves (elemSize m : ℕ) :
    Triple (fun s => s.unfinished = n) (allocArray elemSize m) (Leaves n) :=
  .bind (R := fun _ s => s.unfinished = n) (.bind (R := fun _ s => s.unfinished = n)
    (.ite (fun _ => .pure fun _ h => h) fun _ => .throw fun _ _ => trivial) fun _ => .pure fun _ h => h)
    fun _ => (alloc_triple (H := fun _ => True) trivial fun _ _ h _ => h).conseq (fun _ h => h)
      (fun _ _ h => h) (fun _ _ _ => trivial) fun _ _ => trivial

end

namespace Session

theorem pooled_run (setup : Setup) (calls : List Call) :
    ((init setup).run calls).Holds (fun _ => True) fun _ s => Pooled False 0 0 0 s.poolState := by
  refine steadfast_pool.run (s := init setup) ⟨⟨⟨?_, fun _ => ?_, fun _ t ht => ?_⟩, False.elim⟩,
    fun _ => rfl, by simp [init]⟩ fun call _ => call.builds_any _
  · exact ⟨_, Nat.le_max_right .., rfl⟩
  · exact ⟨trivial, by simp [init, Sys.init, Sys.poolState, Device.init],
      by simp [init, Sys.init, Sys.poolState, Device.init], List.nodup_nil⟩
  · simp [init, Sys.init, Sys.poolState] at ht

/-- The buffers mapped over a stretch in which no transfer fails and the capacity stays. -/
theorem stagings_run (setup : Setup) (calls stretch : List Call)
    (hcapacity : ∀ bytes, .setStagingCapacity bytes ∉ stretch) :
    let s := (init setup).run calls
    let t := s.run stretch
    t.sys.poolState.Exact → t.sys.unfinished = s.sys.unfinished →
      t.sys.poolState.stagings ≤
        s.sys.poolState.stagings + (Nat.clog 2 (s.sys.dev.stagingCapacity / 2) + 2) := by
  intro s t hexact hfinished
  have hpooled := pooled_run setup calls
  have hstart : s.Holds (fun _ => True) fun _ sys => Pooled True s.sys.unfinished
      (s.sys.poolState.stagings + (Nat.clog 2 (s.sys.dev.stagingCapacity / 2) + 2))
      s.sys.dev.stagingCapacity sys.poolState :=
    ⟨⟨hpooled.sys.pool, fun _ => ⟨Nat.le_refl _, fun _ => ⟨rfl, fun _ =>
      Nat.add_le_add_left (budget_le ..) _⟩⟩⟩, hpooled.pending, hpooled.reason⟩
  have hend := (settled_pool _ _ _ _).run hstart (fun call _ => call.builds_any _) hcapacity
  exact Nat.le_of_add_right_le (((hend.sys.budget trivial).bound hfinished).2 hexact)

/-- A call that neither fails nor stops leaves no transfer unfinished. -/
theorem perform_leaves {α : Type} {m : M α} {keep : Session → α → Session × Reply} {call : Call}
    {s : Session} (hm : Triple (fun sys => sys.unfinished = n) m (Leaves n))
    (hs : s.sys.unfinished = n) (hstop : (s.perform call m keep).stopped = none)
    (hsys : ∀ t a, (keep t a).1.sys = t.sys)
    (hok : (s.perform call m keep).failures = s.failures) :
    (s.perform call m keep).sys.unfinished = n := by
  have h := hm s.sys hs
  unfold perform at hstop hok ⊢
  split at hstop <;> rename_i heq <;> rw [heq] at h
  · rw [← h]
    exact congrArg Sys.unfinished (hsys _ _)
  · simp only [heq] at hok
    simp [failures, Reply.isFailed] at hok
  · simp at hstop

theorem unfinished_step {s : Session} {call : Call} (hp : s.stopped = none → s.sys.pending = [])
    (hcapacity : ∀ bytes, call ≠ .setStagingCapacity bytes) (hstop : (s.step call).stopped = none)
    (hok : (s.step call).failures = s.failures) :
    (s.step call).sys.unfinished = s.sys.unfinished := by
  have hstart : s.stopped = none := 
    stopped_of_run (show (s.run [call]).stopped = none from hstop)
  by_cases hstages : call.stages = false
  · have hsedate : Sedate (fun _ => True) (fun _ => True) (fun _ => True) fun _ sys =>
        sys.poolState.unfinished = s.sys.unfinished :=
      sedate_poolState (Q := fun v => v.unfinished = s.sys.unfinished) fun _ _ _ h => h
    exact (hsedate.step ⟨rfl, hp, fun _ _ => trivial⟩ (call.builds_any _) hstages).sys
  have hgoing : ¬s.stopped.isSome = true := by simp [hstart]
  unfold step at hstop hok ⊢
  rw [if_neg hgoing] at hstop hok ⊢
  cases call with
  | upload elemSize n data =>
    exact perform_leaves (.bind (allocArray_leaves _ _) fun _ => .bind (h2dStaged_leaves _ _ _ _)
      fun _ => .pure fun _ h => h) rfl hstop (fun _ _ => rfl) hok
  | loadKernel image slice =>
    exact perform_leaves (loadKernel_leaves image) rfl hstop (fun _ _ => rfl) hok
  | memcpyH2d src dst opts =>
    exact perform_leaves (h2dStaged_leaves _ _ _ _) rfl hstop (fun _ _ => rfl) hok
  | memcpyD2h src len opts =>
    exact perform_leaves (memcpyD2h_leaves _ _ _) rfl hstop (fun _ _ => rfl) hok
  | fill region value =>
    exact perform_leaves (h2dStaged_leaves _ _ _ _) rfl hstop (fun _ _ => rfl) hok
  | setStagingCapacity bytes => exact absurd rfl (hcapacity bytes)
  | _ => simp [Call.stages] at hstages

/-- Over a stretch in which no call fails, no transfer is left unfinished. -/
theorem unfinished_run {s : Session} {stretch : List Call}
    (hs : s.Holds (fun _ => True) fun _ sys => Pooled False 0 0 0 sys.poolState)
    (hcapacity : ∀ bytes, .setStagingCapacity bytes ∉ stretch)
    (hstop : (s.run stretch).stopped = none) (hok : (s.run stretch).failures = s.failures) :
    (s.run stretch).sys.unfinished = s.sys.unfinished := by
  induction stretch generalizing s with
  | nil => rfl
  | cons call stretch ih =>
    have hfirst : (s.step call).failures = s.failures :=
      Nat.le_antisymm ((failures_le_run (s.step call) stretch).trans_eq hok) (s.failures_le_step call)
    have hstep := steadfast_pool.step hs (call.builds_any _)
    have hrest := ih hstep (fun bytes hmem => hcapacity bytes (List.mem_cons_of_mem _ hmem)) hstop
      (hok.trans hfirst.symm)
    exact hrest.trans (unfinished_step hs.pending (fun bytes heq =>
      hcapacity bytes (heq ▸ List.mem_cons_self)) (stopped_of_run hstop) hfirst)

/-- The staging buffers, when the transport maps them in exactly the size asked for: they
are few and small, every transfer gets those it needs, and not many are mapped while the
capacity stays and no transfer fails, as none does in a stretch without a failed call. -/
theorem staging_disciplined (setup : Setup) (calls stretch : List Call) :
    let s := (init setup).run calls
    let t := s.run stretch
    t.sys.poolState.Exact →
      t.sys.poolState.Modest ∧ (∀ taking ∈ t.sys.taken, taking.Disciplined) ∧
      ((∀ bytes, .setStagingCapacity bytes ∉ stretch) →
        (t.sys.unfinished = s.sys.unfinished → t.sys.poolState.stagings ≤
          s.sys.poolState.stagings + (Nat.clog 2 (s.sys.dev.stagingCapacity / 2) + 2)) ∧
        (t.stopped = none → t.failures = s.failures → t.sys.unfinished = s.sys.unfinished)) := by
  intro s t hexact
  have hpooled := pooled_run setup (calls ++ stretch)
  unfold run at hpooled
  rw [List.foldl_append] at hpooled
  refine ⟨(hpooled.sys.pool.stock hexact).modest, hpooled.sys.pool.taken hexact,
    fun hcapacity => ⟨stagings_run setup calls stretch hcapacity hexact, fun hstop hok => ?_⟩⟩
  exact unfinished_run (pooled_run setup calls) hcapacity hstop hok

theorem exact_of_mapped {s : Session} {mapped : List Mapping} (h : s.sys.mapped = mapped)
    (hlen : ∀ m ∈ mapped, m.buffer.len = m.requested) : s.sys.poolState.Exact :=
  fun m hm _ => hlen m (h ▸ hm)

/-- An upload, the download of what was stored and a fill, which use two buffers in turn. -/
def threeTransfers : List Call :=
  [.memcpyH2d eleven 8 .default, .memcpyD2h 8 11 .default, .fill ⟨8, 2⟩ 7]

/-- The transfers after one that failed. -/
def recovering : Setup := { cycling with script := cycling.script ++ granted 2 ++ [served 13 13 0] }

theorem staging_disciplined_recovering :
    ((init recovering).run cycling.calls).failures = 1 ∧
      (((init recovering).run cycling.calls).run threeTransfers).sys.taken.length = 4 ∧
      (((init recovering).run cycling.calls).run threeTransfers).sys.poolState.Modest ∧
      (∀ taking ∈ (((init recovering).run cycling.calls).run threeTransfers).sys.taken,
        taking.Disciplined) ∧
      (((init recovering).run cycling.calls).run threeTransfers).sys.poolState.stagings ≤
        ((init recovering).run cycling.calls).sys.poolState.stagings +
          (Nat.clog 2 (((init recovering).run cycling.calls).sys.dev.stagingCapacity / 2) + 2) := by
  have hmapped : (((init recovering).run cycling.calls).run threeTransfers).sys.mapped =
      [⟨⟨⟨.staging, 2⟩, 4, 0⟩, 4⟩, ⟨⟨⟨.staging, 1⟩, 4, 0⟩, 4⟩, ⟨⟨⟨.staging, 0⟩, 2, 0⟩, 2⟩] := by
    decide +kernel
  have hdisciplined := staging_disciplined recovering cycling.calls threeTransfers
    (exact_of_mapped hmapped (by decide))
  have hstretch := hdisciplined.2.2 (by simp [threeTransfers])
  have hstop : (((init recovering).run cycling.calls).run threeTransfers).stopped = none := by
    decide +kernel
  have hok : (((init recovering).run cycling.calls).run threeTransfers).failures =
      ((init recovering).run cycling.calls).failures := by decide +kernel
  exact ⟨by decide +kernel, by decide +kernel, hdisciplined.1, hdisciplined.2.1,
    hstretch.1 (hstretch.2 hstop hok)⟩

end Session

end EtSoc

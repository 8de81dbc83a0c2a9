import EtSoc.Verification.Dma.Transfer

/-! # The host-to-device pipeline

While a chunk is filled into its buffer and pushed, the commands of the chunk before it
may still be under way, in the other buffer. -/

namespace EtSoc

open Function Program

/-! ## The loop -/

variable {E : Env} {B : World → Prop} {acc : List Accepted} {fr : Frame} {rest : List Tag}
  {buffers : List DmaHostBuffer} {total dst chunk : ℕ} {opts : DmaOptions} {data : Memory}
  {produce : Produce}

/-- The buffers of the chunks `[lo, i)` hold them, and are only sent from. -/
def Sent (E : Env) (buffers : List DmaHostBuffer) (total dst chunk : ℕ) (data : Memory)
    (lo i : ℕ) (w : World) : Prop :=
  E.strict .staging → ∀ j b, lo ≤ j → j < i → buffers[j % buffers.length]? = some b →
    w.Only true b.id ∧
      ∀ k < min chunk (total - j * chunk), w.host b.id k = data (dst + j * chunk + k)

theorem patient_sent {lo i : ℕ} : Patient (Sent E buffers total dst chunk data lo i) := by
  refine ⟨fun w d hs h hstrict j b hlo hj hb => ?_, fun _ _ _ _ _ h => h⟩
  obtain ⟨honly, hdata⟩ := h hstrict j b hlo hj hb
  obtain ⟨honly', hhost⟩ :=
    (World.patient_sending b.id (w.host b.id)).step w d hs ⟨honly, rfl⟩
  exact ⟨honly', by rwa [hhost]⟩

theorem tolerates_sent {lo i : ℕ} {sqIndex : UInt16} {buf : BufId} {addr len : ℕ} :
    Tolerates E (Sent E buffers total dst chunk data lo i) .write sqIndex buf addr len :=
  fun _ _ _ h ha _ hstrict j b hlo hj hb =>
    ⟨(h hstrict j b hlo hj hb).1.accept ha.isWrite_eq, (h hstrict j b hlo hj hb).2⟩

/-- The commands `done` and, last, `prev` send the first `i` chunks. -/
structure Uploaded (E : Env) (buffers : List DmaHostBuffer) (total dst chunk : ℕ)
    (sqIndex : UInt16) (data : Memory) (i : ℕ) (done prev : List Accepted) : Prop where
  transfers : Transfers .write sqIndex (· ∈ buffers.map (·.id)) dst (min (i * chunk) total)
    (done ++ prev)
  payload : ∀ a ∈ done ++ prev, E.strict .staging → Payload data a
  last : ∀ a ∈ prev, ∀ n ∈ a.cmd.nodes, ∃ b, 0 < i ∧
    buffers[(i - 1) % buffers.length]? = some b ∧ n.hostVirtAddr.buf = b.id
  oneChunk : OneChunk prev

/-- What one command of the transfer is. -/
def Uploads (E : Env) (buffers : List DmaHostBuffer) (total dst : ℕ) (sqIndex : UInt16)
    (data : Memory) (a : Accepted) : Prop :=
  Carries .write sqIndex (· ∈ buffers.map (·.id)) dst total a ∧
    (E.strict .staging → Payload data a)

theorem Uploaded.uploads {sqIndex : UInt16} {i : ℕ} {done prev : List Accepted}
    (h : Uploaded E buffers total dst chunk sqIndex data i done prev) (a : Accepted)
    (ha : a ∈ done ++ prev) : Uploads E buffers total dst sqIndex data a :=
  ⟨(h.transfers.carries a ha).mono (fun _ hb => hb) (Nat.le_refl _) (by omega), h.payload a ha⟩

/-- The state before chunk `i` is filled. -/
def UploadAt (E : Env) (B : World → Prop) (fr : Frame) (rest : List Tag) (acc : List Accepted)
    (buffers : List DmaHostBuffer) (total dst chunk : ℕ) (data : Memory) (i : ℕ)
    (done prev : List Accepted) : Sys → Prop :=
  Tidy (fun w => (Pool E B acc buffers w ∧
      Sent E buffers total dst chunk data (i - buffers.length) i w ∧
      w.CompletedFrom acc.length (acc ++ done).length) ∧ w.accepted = acc ++ done ++ prev)
    { fr with pending := prev.map (·.cmd.tagId) } rest

/-- A closure fills the chunks of a transfer of `data`, if the old contents of a buffer
used before are those it was sent with. -/
def Produces (produce : Produce) (data : Memory) (count total dst chunk : ℕ) : Prop :=
  ∀ i old, i < chunkCount total chunk →
    (count ≤ i → ∀ k < chunk, old k = data (dst + (i - count) * chunk + k)) →
    ∀ k < min chunk (total - i * chunk), produce i old (i * chunk) k = data (dst + i * chunk + k)

/-- Filling the buffer of chunk `i`. -/
theorem fill_chunk {i : ℕ} {done prev : List Accepted} {b : DmaHostBuffer} {w : World}
    (hB : Stable E B) (hbufs : Buffers buffers)
    (hcount : chunkCount total chunk ≤ 1 ∨ 2 ≤ buffers.length)
    (hproduce : Produces produce data buffers.length total dst chunk)
    (hi : i < chunkCount total chunk) (hb : buffers[i % buffers.length]? = some b)
    (hup : Uploaded E buffers total dst chunk opts.sqIndex data i done prev) (hs : w.Sound)
    (hpool : Pool E B acc buffers w)
    (hsent : Sent E buffers total dst chunk data (i - buffers.length) i w)
    (hdone : w.CompletedFrom acc.length (acc ++ done).length)
    (hacc : w.accepted = acc ++ done ++ prev) {w' : World}
    (hw' : w' = w.fill b.id (Spans.blit (w.host b.id) 0
      (produce i (w.host b.id) (i * chunk)) 0 (min chunk (total - i * chunk)))) :
    Loaded E (Pool E B acc buffers) b.id (dst + i * chunk) (min chunk (total - i * chunk)) data w' ∧
      Sent E buffers total dst chunk data (i + 1 - buffers.length) i w' := by
  have hmem : b ∈ buffers := List.mem_of_getElem? hb
  have hstaging : b.id.purpose = .staging := hbufs.purpose b hmem
  have hpos : 0 < buffers.length := List.length_pos_of_mem hmem
  have hquiet : E.strict .staging → w.Quiescent b.id := fun hstrict =>
    hpool.quiescent hstrict hmem hacc hdone fun a ha n hn heq => by
      obtain ⟨b', hzero, hb', hbuf⟩ := hup.last a ha n hn
      exact hbufs.ne hb hb' (by omega) (by omega) (hbuf.symm.trans heq)
  have hstride : Stride E w w' := by
    rw [hw']
    exact .fill _ _ fun hstrict => hquiet (hstaging ▸ hstrict)
  have hmod : (i - buffers.length) % buffers.length = i % buffers.length ∨ i < buffers.length := by
    obtain hlt | hge := Nat.lt_or_ge i buffers.length
    · exact .inr hlt
    · exact .inl (Nat.mod_eq_sub_mod hge).symm
  refine ⟨⟨stable_pool _ _ hB w w' hs hstride hpool, ?_, fun hstrict => ?_, fun hstrict k hk => ?_⟩,
    fun hstrict j b' hlo hj hb' => ?_⟩
  · rw [hw']
    exact hpool.mapped b hmem
  · rw [hw']
    exact (hquiet (hstaging ▸ hstrict)).only true
  · rw [hw']
    change update w.host b.id _ b.id k = _
    rw [update_self, Spans.blit_inside (Nat.zero_le k) (by omega), Nat.zero_add, Nat.sub_zero]
    refine hproduce i _ hi (fun hle k hk => ?_) k hk
    have hold := hsent (hstaging ▸ hstrict) (i - buffers.length) b (Nat.le_refl _) (by omega)
      (by rw [hmod.resolve_right (by omega)]; exact hb)
    exact hold.2 k (by rwa [min_chunk_eq hi (by omega)])
  · have hne : b'.id ≠ b.id := hbufs.ne hb hb' hj (by omega)
    obtain ⟨honly, hdata⟩ := hsent hstrict j b' (by omega) hj hb'
    rw [hw']
    refine ⟨honly, fun k hk => ?_⟩
    change update w.host b.id _ b'.id k = _
    rw [update_of_ne hne]
    exact hdata k hk

/-- The commands of chunk `i` have been pushed. -/
theorem Uploaded.succ {sqIndex : UInt16} {i : ℕ} {done prev own : List Accepted}
    {b : DmaHostBuffer} (h : Uploaded E buffers total dst chunk sqIndex data i done prev)
    (hi : i < chunkCount total chunk) (hb : buffers[i % buffers.length]? = some b)
    (hstages : Stages .write sqIndex b.id (dst + i * chunk) own (min chunk (total - i * chunk)))
    (hpayload : ∀ a ∈ own, E.strict .staging → Payload data a) :
    Uploaded E buffers total dst chunk sqIndex data (i + 1) (done ++ prev) own := by
  have hmem : b ∈ buffers := List.mem_of_getElem? hb
  refine ⟨?_, fun a ha => ?_, fun a ha n hn => ⟨b, by omega, hb, (hstages.mem ha hn).1⟩,
    hstages.oneChunk⟩
  · rw [min_succ_chunk hi]
    refine h.transfers.append ?_
    have := mul_chunk_lt hi
    rw [min_eq_left (by omega)]
    exact hstages.transfers (List.mem_map_of_mem hmem)
  · rcases List.mem_append.1 ha with ha | ha
    · exact h.payload a ha
    · exact hpayload a ha

theorem Carries.uploads {sqIndex : UInt16} {i : ℕ} {b : DmaHostBuffer} {a : Accepted}
    (h : Carries .write sqIndex (· = b.id) (dst + i * chunk) (min chunk (total - i * chunk)) a)
    (hb : b ∈ buffers) (hi : i < chunkCount total chunk)
    (hpayload : E.strict .staging → Payload data a) :
    Uploads E buffers total dst sqIndex data a := by
  have := mul_chunk_lt hi
  exact ⟨h.mono (fun _ hbuf => hbuf ▸ List.mem_map_of_mem hb) (by omega) (by omega), hpayload⟩

theorem h2dChunks_spec (acc : List Accepted) (fr : Frame) (hB : Stable E B) (hbufs : Buffers buffers)
    (hcount : chunkCount total chunk ≤ 1 ∨ 2 ≤ buffers.length)
    (hproduce : Produces produce data buffers.length total dst chunk)
    (hE : ∀ a, Uploads E buffers total dst opts.sqIndex data a → a.cmd.tagId ∉ rest → E.accepts a)
    (m : ℕ) :
    ∀ i done prev, i + m = chunkCount total chunk →
      Uploaded E buffers total dst chunk opts.sqIndex data i done prev →
      Triple (UploadAt E B fr rest acc buffers total dst chunk data i done prev)
        (h2dChunks buffers total dst opts produce chunk (List.range' i m) prev.length)
        (Ends (fun count s => ∃ done prev, count = prev.length ∧
            Uploaded E buffers total dst chunk opts.sqIndex data (chunkCount total chunk) done prev ∧
            UploadAt E B fr rest acc buffers total dst chunk data (chunkCount total chunk) done
              prev s)
          (Failed B fr rest acc (Uploads E buffers total dst opts.sqIndex data))) := by
  induction m with
  | zero =>
    intro i done prev hi hup
    obtain rfl : i = chunkCount total chunk := by omega
    exact .pure fun s hs => ⟨done, prev, rfl, hup, hs⟩
  | succ m ih =>
    intro i done prev hi hup
    have hi' : i < chunkCount total chunk := by omega
    rw [List.range'_succ]
    refine .bind cycled_spec fun b => .intro (fun _ h => h.2) fun hb => ?_
    have hmem : b ∈ buffers := List.mem_of_getElem? hb
    have hstaging : b.id.purpose = .staging := hbufs.purpose b hmem
    have hpool := stable_pool acc buffers hB
    -- The chunk is filled in, while the commands of the one before are under way.
    let G : World → Prop := fun w => Sent E buffers total dst chunk data (i + 1 - buffers.length) i w ∧
      w.CompletedFrom acc.length (acc ++ done).length
    have hG : Patient G := patient_sent.and (patient_completedFrom _ _)
    refine .bind (R := fun _ => Tidy (fun w => (Loaded E (Pool E B acc buffers) b.id
        (dst + i * chunk) (min chunk (total - i * chunk)) data w ∧ G w) ∧
        w.accepted = acc ++ done ++ prev) { fr with pending := prev.map (·.cmd.tagId) } rest)
      ((writeHost_spec (((hpool.patient.and (patient_sent.and (patient_completedFrom _ _))).and
        (.accepted _))) fun w hs hw => ?_).pre fun _ h => h.1) fun _ => ?_
    · have hfill := fill_chunk hB hbufs hcount hproduce hi' hb hup hs hw.1.1 hw.1.2.1 hw.1.2.2 hw.2
        rfl
      exact ⟨⟨hfill.1, hfill.2, hw.1.2.2⟩, hw.2⟩
    refine .bind u64Add_spec fun addr => .intro (fun _ h => h.2) fun haddr => ?_
    subst haddr
    refine .bind (Triple.conseq (pushWrite_spec hpool hG
      (fun w a hs h ha hst =>
        ⟨tolerates_sent w a hs h.1 ha hst, tolerates_completedFrom w a hs h.2 ha hst⟩)
      fun a ha hpay hfresh => hE a (ha.uploads hmem hi' (hstaging ▸ hpay)) hfresh) (fun _ h => h.1)
      (fun _ _ h => h) (fun e s h => ?_) fun _ h => h) fun _ => .exists_pre fun own => ?_
    · obtain ⟨own, off, hoff, hpay, hstages, hs⟩ := h
      refine Failed.of_pends (done ++ prev ++ own) _
        (P := fun w => Loaded E (Pool E B acc buffers) b.id (dst + i * chunk)
          (min chunk (total - i * chunk)) data w ∧ G w) (fun a ha => ?_)
        (hs.mono fun w hw => ⟨hw.1, by simpa using hw.2⟩) (by simp [Pends])
        fun w hw => ⟨hw.1.base.base, hw.2.2⟩
      rcases List.mem_append.1 ha with ha | ha
      · exact hup.uploads a ha
      · exact (hstages.carries hoff ha).uploads hmem hi' fun hstrict => hpay a ha (hstaging ▸ hstrict)
    refine .intro (fun _ h => h.1) fun hpay => .intro (fun _ h => h.2.1) fun hstages => ?_
    refine .bind (Triple.conseq (awaitDma_spec (acc ++ done).length
      ((patient_loaded hpool.patient).and hG)
      (by simp [Pends]) (hup.oneChunk.chunked _ own)) (fun _ h => h.2.2) (fun _ _ h => h)
      (fun e s h => ?_) fun _ h => h) fun _ => ?_
    · obtain ⟨forgotten, hrefuses, hs⟩ := h
      refine Failed.of_await (done ++ prev ++ own) _
        (P := fun w => Loaded E (Pool E B acc buffers) b.id (dst + i * chunk)
          (min chunk (total - i * chunk)) data w ∧ G w) (fun a ha => ?_)
        (fun he hp _ => by simpa using hrefuses he hp)
        (hs.mono fun w hw => ⟨⟨hw.1.1, by simpa using hw.1.2⟩, by simpa using hw.2⟩)
        fun w hw => ⟨hw.1.base.base, hw.2.2⟩
      rcases List.mem_append.1 ha with ha | ha
      · exact hup.uploads a ha
      · exact (hstages.carries (Nat.le_refl _) ha).uploads hmem hi' fun hstrict =>
          hpay a ha (hstaging ▸ hstrict)
    have hdrop : (prev.map (·.cmd.tagId) ++ own.map (·.cmd.tagId)).drop prev.length =
        own.map (·.cmd.tagId) := List.drop_left' (by simp)
    refine Triple.pre (P := UploadAt E B fr rest acc buffers total dst chunk data (i + 1)
      (done ++ prev) own) (getPending_bind ?_) fun s hs => ?_
    · simp only [List.length_map]
      exact ih (i + 1) (done ++ prev) own (by omega)
        (hup.succ hi' hb hstages fun a ha hstrict => hpay a ha (hstaging ▸ hstrict))
    · rw [hdrop] at hs
      refine hs.2.mono fun w hw => ?_
      obtain ⟨⟨⟨hloaded, hsent, hdone⟩, hacc⟩, hprev⟩ := hw
      refine ⟨⟨hloaded.base, fun hstrict j b' hlo hj hb' => ?_, fun c hlo hhi => ?_⟩,
        by simpa using hacc⟩
      · obtain rfl | hj := Nat.eq_or_lt_of_le (Nat.le_of_lt_succ hj)
        · obtain rfl : b' = b := Option.some.inj (hb'.symm.trans hb)
          exact ⟨hloaded.only (hstaging ▸ hstrict), hloaded.contents (hstaging ▸ hstrict)⟩
        · exact hsent hstrict j b' hlo hj hb'
      · by_cases hc : c < (acc ++ done).length
        · exact hdone c hlo hc
        · refine hprev c (by omega) ?_
          simp only [List.length_append] at hhi ⊢
          omega

/-! ## The transfer -/

theorem h2dPipeline_spec (hB : Stable E B) (hbufs : Buffers buffers)
    (hcount : chunkCount total (stagingChunk buffers) ≤ 1 ∨ 2 ≤ buffers.length)
    (hproduce : Produces produce data buffers.length total dst (stagingChunk buffers))
    (hE : ∀ a, Uploads E buffers total dst opts.sqIndex data a → a.cmd.tagId ∉ rest → E.accepts a) :
    Triple (Tidy (fun w => Pool E B acc buffers w ∧ w.accepted = acc)
        { fr with pending := [] } rest)
      (h2dPipeline buffers total dst opts produce)
      (Ends (fun _ s => ∃ own,
          Transfers .write opts.sqIndex (· ∈ buffers.map (·.id)) dst total own ∧
          (∀ a ∈ own, E.strict .staging → Payload data a) ∧ Transferred B fr rest acc own s)
        (Failed B fr rest acc (Uploads E buffers total dst opts.sqIndex data))) := by
  have hpool := stable_pool acc buffers hB
  have hstart : Uploaded E buffers total dst (stagingChunk buffers) opts.sqIndex data 0 [] [] :=
    ⟨by simpa using Transfers.nil, by simp, by simp, fun i a _ ha => by simp at ha⟩
  have hloop := h2dChunks_spec acc fr hB hbufs hcount hproduce hE
    (chunkCount total (stagingChunk buffers)) 0 [] [] (by omega) hstart
  rw [← List.range_eq_range'] at hloop
  refine .bind (hloop.conseq (fun s hs => hs.mono fun w hw => ?_) (fun _ _ h => h)
    (fun _ _ h => h) fun _ h => h) fun count => .exists_pre fun done => .exists_pre fun prev => ?_
  · exact ⟨⟨hw.1, fun _ j b _ hj => absurd hj (Nat.not_lt_zero j), fun c hlo hhi => by
      simp only [List.append_nil] at hhi; omega⟩, by simpa using hw.2⟩
  refine .intro (fun _ h => h.1) fun hlen => .intro (fun _ h => h.2.1) fun hup => ?_
  subst hlen
  refine (awaitDma_spec (acc ++ done).length
    (hpool.patient.and (patient_sent.and (patient_completedFrom _ _)))
    (by simp [Pends]) (by simpa using hup.oneChunk.chunked (acc ++ done) [])).conseq
    (fun _ h => h.2.2) (fun _ s hs => ?_) (fun e s hs => ?_)
    fun _ h => h
  · refine ⟨done ++ prev, ?_, hup.payload, ?_⟩
    · have := hup.transfers
      rwa [min_eq_right (le_chunkCount_mul total stagingChunk_pos)] at this
    · have hdrop : (prev.map (·.cmd.tagId)).drop prev.length = [] :=
        List.drop_eq_nil_of_le (by simp)
      rw [hdrop] at hs
      refine hs.2.mono fun w hw => ⟨hw.1.1.1.base, by simpa using hw.1.2, fun c hlo hhi => ?_⟩
      by_cases hc : c < (acc ++ done).length
      · exact hw.1.1.2.2 c hlo hc
      · exact hw.2 c (by omega) (by simpa [Nat.add_assoc] using hhi)
  · obtain ⟨forgotten, hrefuses, hs⟩ := hs
    exact Failed.of_await _ _ hup.uploads (fun he hp _ => by simpa using hrefuses he hp)
      (hs.mono fun w hw => ⟨⟨hw.1.1, by simpa using hw.1.2⟩, by simpa using hw.2⟩)
      fun w hw => ⟨hw.1.base, hw.2.2⟩

end EtSoc

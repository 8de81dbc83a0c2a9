import EtSoc.Verification.Dma.Transfer

/-! # The device-to-host pipeline

While a chunk is awaited and copied out, the commands of the next one may already be
under way, into the other buffer. -/

namespace EtSoc

open Function Program

/-- The bytes `out` are the `n` ones at `addr` of `M`, as far as these are known. -/
def Shown (M : Memory) (good : ℕ → Prop) (addr n : ℕ) (out : List UInt8) : Prop :=
  out.length = n ∧ ∀ k < n, good (addr + k) → out[k]? = some (M (addr + k))

section Shown
variable {M : Memory} {good : ℕ → Prop} {addr n m : ℕ} {out out' : List UInt8}

theorem Shown.nil : Shown M good addr 0 [] := ⟨rfl, by simp⟩

theorem Shown.append (h : Shown M good addr n out) (h' : Shown M good (addr + n) m out') :
    Shown M good addr (n + m) (out ++ out') := by
  refine ⟨by rw [List.length_append, h.1, h'.1], fun k hk hgood => ?_⟩
  obtain hlt | hge := Nat.lt_or_ge k n
  · rw [List.getElem?_append_left (by rwa [h.1])]
    exact h.2 k hlt hgood
  · rw [List.getElem?_append_right (by rwa [h.1]), h.1]
    have := h'.2 (k - n) (by omega)
    rw [show addr + n + (k - n) = addr + k by omega] at this
    exact this hgood

end Shown

variable {E : Env} {B : World → Prop} {acc : List Accepted} {fr : Frame} {rest : List Tag}
  {buffers : List DmaHostBuffer} {total src chunk : ℕ} {opts : DmaOptions} {M : Memory}
  {good : ℕ → Prop}

theorem Shows.mono {B' : World → Prop} (h : Shows E B acc M good) (hB : ∀ w, B' w → B w) :
    Shows E B' acc M good :=
  ⟨h.strict, fun x hx w hw => h.executes x hx w (hB w hw),
    fun w hs hw => h.mem w hs (hB w hw)⟩

/-- What one command of the transfer is. -/
def Downloads (buffers : List DmaHostBuffer) (total src : ℕ) (sqIndex : UInt16)
    (a : Accepted) : Prop :=
  Carries .read sqIndex (· ∈ buffers.map (·.id)) src total a

/-- The commands after the first ones only read. -/
theorem reads_of_downloads {own : List Accepted} {w : World} (hacc : w.accepted = acc ++ own)
    (hown : ∀ a ∈ own, Downloads buffers total src opts.sqIndex a) :
    ∀ a ∈ w.accepted.drop acc.length, a.cmd.isWrite = false ∧ a.cmd.launch? = none := by
  rw [hacc, List.drop_left]
  exact fun a ha => ⟨(hown a ha).isWrite_eq, (hown a ha).launch?_eq⟩

/-! ## Pushing a chunk -/

theorem readChunk_spec {G : World → Prop} {index : ℕ} (own : List Accepted)
    {pending : List Tag} (hB : Stable E B) (hbufs : Buffers buffers) (hG : Patient G)
    (htol : ∀ b, buffers[index % buffers.length]? = some b → Tolerates E G .read opts.sqIndex b.id
      (src + index * chunk) (min chunk (total - index * chunk)))
    (hshows : Shows E B acc M good) (hindex : index < chunkCount total chunk)
    (hown : ∀ a ∈ own, Downloads buffers total src opts.sqIndex a)
    (hE : ∀ a, Downloads buffers total src opts.sqIndex a → a.cmd.tagId ∉ rest → E.accepts a) :
    Triple (Tidy (fun w => ((Pool E B acc buffers w ∧ G w) ∧
          ∀ b, buffers[index % buffers.length]? = some b → E.strict .staging → w.Quiescent b.id) ∧
          w.accepted = acc ++ own) { fr with pending := pending } rest)
      (readChunk buffers src total opts chunk index)
      (Ends (fun _ s => ∃ b next, buffers[index % buffers.length]? = some b ∧
          Stages .read opts.sqIndex b.id (src + index * chunk) next
            (min chunk (total - index * chunk)) ∧
          Tidy (fun w => (Fetching E (Pool E B acc buffers) acc (acc ++ own) b.id
              (src + index * chunk) M good w ∧ G w) ∧ w.accepted = acc ++ own ++ next)
            { fr with pending := pending ++ next.map (·.cmd.tagId) } rest s)
        fun _ s => ∃ next, (∀ a ∈ next, Downloads buffers total src opts.sqIndex a) ∧
          Tidy (fun w => (B w ∧ G w) ∧ w.accepted = acc ++ own ++ next)
            { fr with pending := pending ++ next.map (·.cmd.tagId) } rest s) := by
  have hlt := mul_chunk_lt hindex
  have hpool := stable_pool acc buffers hB
  refine .bind cycled_spec fun b => .intro (fun _ h => h.2) fun hb => ?_
  have hmem : b ∈ buffers := List.mem_of_getElem? hb
  have hcarries : ∀ a, Carries .read opts.sqIndex (· = b.id) (src + index * chunk)
      (min chunk (total - index * chunk)) a → Downloads buffers total src opts.sqIndex a :=
    fun a ha => ha.mono (fun _ hbuf => hbuf ▸ List.mem_map_of_mem hmem) (by omega) (by omega)
  refine .bind (u64Add_spec.pre fun _ h => h.1) fun addr => .intro (fun _ h => h.2) fun haddr => ?_
  subst haddr
  refine (pushRead_spec hpool hG (htol b hb)
    (hshows.mono fun w hw => hw.base) fun a ha hfresh => hE a (hcarries a ha) hfresh).conseq
    (fun s hs => hs.1.mono fun w hw => ⟨⟨?_, hw.1.1.2⟩, hw.2⟩)
    (fun _ s ⟨next, hstages, hs⟩ => ⟨b, next, hb, hstages, hs⟩)
    (fun e s ⟨next, off, hoff, hstages, hs⟩ => ⟨next, fun a ha => hcarries a (hstages.carries hoff ha),
      hs.mono fun w hw => ⟨⟨hw.1.1.base.base, hw.1.2⟩, hw.2⟩⟩) fun _ h => h
  rw [← hw.2]
  refine .init hw.1.1.1 (hw.1.1.1.mapped b hmem) (by simp [hw.2])
    (reads_of_downloads hw.2 hown) fun hstrict => ?_
  exact World.vacant_accepted.2 (hw.1.2 b hb (hbufs.purpose b hmem ▸ hstrict))

/-! ## The loop -/

/-- The commands `done` read the first `i` chunks and `cur` reads the next. -/
structure Downloaded (buffers : List DmaHostBuffer) (total src chunk : ℕ) (sqIndex : UInt16)
    (i : ℕ) (done cur : List Accepted) : Prop where
  transfers : Transfers .read sqIndex (· ∈ buffers.map (·.id)) src (min ((i + 1) * chunk) total)
    (done ++ cur)
  current : ∀ b, i < chunkCount total chunk → buffers[i % buffers.length]? = some b →
    Stages .read sqIndex b.id (src + i * chunk) cur (min chunk (total - i * chunk))
  finished : ¬i < chunkCount total chunk → cur = []

theorem Downloaded.downloads {sqIndex : UInt16} {i : ℕ} {done cur : List Accepted}
    (h : Downloaded buffers total src chunk sqIndex i done cur) (a : Accepted)
    (ha : a ∈ done ++ cur) : Downloads buffers total src sqIndex a :=
  (h.transfers.carries a ha).mono (fun _ hb => hb) (Nat.le_refl _) (by omega)

/-- The commands of chunk `i` are under way, into its buffer. -/
structure Underway (E : Env) (B : World → Prop) (acc : List Accepted)
    (buffers : List DmaHostBuffer) (total src chunk : ℕ) (M : Memory) (good : ℕ → Prop) (i : ℕ)
    (done : List Accepted) (w : World) : Prop where
  pool : Pool E B acc buffers w
  fetching : ∀ b, i < chunkCount total chunk → buffers[i % buffers.length]? = some b →
    Fetching E (Pool E B acc buffers) acc (acc ++ done) b.id (src + i * chunk) M good w
  done : w.CompletedFrom acc.length (acc ++ done).length

theorem patient_underway {i : ℕ} {done : List Accepted} (hB : Stable E B)
    (hshows : Shows E B acc M good) :
    Patient (Underway E B acc buffers total src chunk M good i done) := by
  have hpool := (stable_pool acc buffers hB).patient
  have hfetching : ∀ addr buf,
      Patient (Fetching E (Pool E B acc buffers) acc (acc ++ done) buf addr M good) := fun _ _ =>
    Fetching.patient hpool (hshows.mono fun w hw => hw.base)
  exact ⟨fun w d hs h => ⟨hpool.step w d hs h.pool,
      fun b hi hb => (hfetching _ _).step w d hs (h.fetching b hi hb),
      (patient_completedFrom _ _).step w d hs h.done⟩,
    fun w c rsp hs hr h => ⟨hpool.pop w c rsp hs hr h.pool,
      fun b hi hb => (hfetching _ _).pop w c rsp hs hr (h.fetching b hi hb),
      (patient_completedFrom _ _).pop w c rsp hs hr h.done⟩⟩

/-- The commands of the next chunk do not disturb it. -/
theorem tolerates_underway {i j : ℕ} {done : List Accepted} {b : DmaHostBuffer} {addr len : ℕ}
    (hB : Stable E B) (hbufs : Buffers buffers) (hb : buffers[j % buffers.length]? = some b)
    (hij : i < j) (hji : j < i + buffers.length) :
    Tolerates E (Underway E B acc buffers total src chunk M good i done) .read opts.sqIndex b.id
      addr len := by
  intro w a hs h ha hst
  have hpool := stable_pool acc buffers hB
  refine ⟨hpool w _ hs hst h.pool, fun b' hi hb' => ?_, h.done⟩
  refine (h.fetching b' hi hb').accept hs hpool hst ha fun n hn hbuf => ?_
  exact absurd (hbuf.symm.trans (ha.within n hn).1) (hbufs.ne hb hb' hij hji)

/-- The commands of the chunk after `i` have been pushed, if there is one. -/
theorem Downloaded.succ {sqIndex : UInt16} {i : ℕ} {done cur next : List Accepted}
    {b : DmaHostBuffer} (h : Downloaded buffers total src chunk sqIndex i done cur)
    (hi : i + 1 < chunkCount total chunk) (hb : buffers[(i + 1) % buffers.length]? = some b)
    (hstages : Stages .read sqIndex b.id (src + (i + 1) * chunk) next
      (min chunk (total - (i + 1) * chunk))) :
    Downloaded buffers total src chunk sqIndex (i + 1) (done ++ cur) next := by
  refine ⟨?_, fun b' _ hb' => ?_, fun hnot => absurd hi hnot⟩
  · rw [min_succ_chunk hi]
    refine h.transfers.append ?_
    have := mul_chunk_lt hi
    rw [min_eq_left (by omega)]
    exact hstages.transfers (List.mem_map_of_mem (List.mem_of_getElem? hb))
  · obtain rfl : b' = b := Option.some.inj (hb'.symm.trans hb)
    exact hstages

theorem Downloaded.last {sqIndex : UInt16} {i : ℕ} {done cur : List Accepted}
    (h : Downloaded buffers total src chunk sqIndex i done cur) (hchunk : 1 ≤ chunk)
    (hi : i + 1 = chunkCount total chunk) :
    Downloaded buffers total src chunk sqIndex (i + 1) (done ++ cur) [] := by
  refine ⟨?_, fun b hlt => by omega, fun _ => rfl⟩
  have hcover := le_chunkCount_mul total hchunk
  rw [← hi] at hcover
  have htransfers := h.transfers
  rw [min_eq_right hcover] at htransfers
  rw [min_eq_right (hcover.trans (Nat.mul_le_mul_right chunk (Nat.le_succ _))), List.append_nil]
  exact htransfers

theorem readNext_spec {i : ℕ} {done cur : List Accepted} (hB : Stable E B)
    (hbufs : Buffers buffers) (hcount : chunkCount total chunk ≤ 1 ∨ 2 ≤ buffers.length)
    (hchunk : 1 ≤ chunk) (hpos : 0 < buffers.length) (hshows : Shows E B acc M good)
    (hi : i < chunkCount total chunk)
    (hdown : Downloaded buffers total src chunk opts.sqIndex i done cur)
    (hE : ∀ a, Downloads buffers total src opts.sqIndex a → a.cmd.tagId ∉ rest → E.accepts a) :
    Triple (Tidy (fun w => Underway E B acc buffers total src chunk M good i done w ∧
          w.accepted = acc ++ done ++ cur) { fr with pending := cur.map (·.cmd.tagId) } rest)
      (readNext buffers src total opts chunk i)
      (Ends (fun _ s => ∃ next,
          Downloaded buffers total src chunk opts.sqIndex (i + 1) (done ++ cur) next ∧
          Tidy (fun w => (Underway E B acc buffers total src chunk M good i done w ∧
              ∀ b, i + 1 < chunkCount total chunk →
                buffers[(i + 1) % buffers.length]? = some b →
                Fetching E (Pool E B acc buffers) acc (acc ++ (done ++ cur)) b.id
                  (src + (i + 1) * chunk) M good w) ∧ w.accepted = acc ++ done ++ cur ++ next)
            { fr with pending := cur.map (·.cmd.tagId) ++ next.map (·.cmd.tagId) } rest s)
        (Failed B fr rest acc (Downloads buffers total src opts.sqIndex))) := by
  refine .ite (fun hnext => ?_) fun hlast => .pure fun s hs => ⟨[], ?_, ?_⟩
  · obtain ⟨b, hb⟩ : ∃ b, buffers[i % buffers.length]? = some b :=
      ⟨_, List.getElem?_eq_getElem (Nat.mod_lt _ hpos)⟩
    have hcur : ∀ a ∈ cur, ∀ n ∈ a.cmd.nodes, n.hostVirtAddr.buf = b.id := fun a ha n hn =>
      ((hdown.current b hi hb).mem ha hn).1
    refine (readChunk_spec _ (M := M) hB hbufs (patient_underway (i := i) hB hshows)
      (fun b' hb' => tolerates_underway hB hbufs hb' (by omega) (by omega)) hshows hnext
      hdown.downloads hE).conseq (fun s hs => hs.mono fun w hw =>
        ⟨⟨⟨hw.1.pool, hw.1⟩, fun b' hb' hstrict => ?_⟩, by simpa using hw.2⟩)
      (fun _ s ⟨b', next, hb', hstages, hs⟩ => ⟨next, hdown.succ hnext hb' hstages,
        hs.mono fun w hw => ⟨⟨hw.1.2, fun b'' _ hb'' => ?_⟩, by simpa using hw.2⟩⟩)
      (fun e s ⟨next, hcarries, hs⟩ => ?_) fun _ h => h
    · refine hw.1.pool.quiescent hstrict (List.mem_of_getElem? hb') hw.2 hw.1.done
        fun a ha n hn => ?_
      rw [hcur a ha n hn]
      exact hbufs.ne hb' hb (by omega) (by omega)
    · obtain rfl : b'' = b' := Option.some.inj (hb''.symm.trans hb')
      exact hw.1.1
    · refine Failed.of_pends (done ++ cur ++ next) _
        (P := fun w => B w ∧ Underway E B acc buffers total src chunk M good i done w)
        (fun a ha => ?_) (hs.mono fun w hw => ⟨hw.1, by simpa using hw.2⟩) (by simp [Pends])
        fun w hw => ⟨hw.1, hw.2.done⟩
      rcases List.mem_append.1 ha with ha | ha
      · exact hdown.downloads a ha
      · exact hcarries a ha
  · exact hdown.last hchunk (by omega)
  · refine Tidy.mono (P := fun w => Underway E B acc buffers total src chunk M good i done w ∧
      w.accepted = acc ++ done ++ cur) (by simpa using hs) fun w hw =>
        ⟨⟨hw.1, fun b hlt => absurd hlt hlast⟩, by simpa using hw.2⟩

theorem d2hChunks_spec (fr : Frame) (hB : Stable E B) (hbufs : Buffers buffers)
    (hcount : chunkCount total chunk ≤ 1 ∨ 2 ≤ buffers.length) (hchunk : 1 ≤ chunk)
    (hpos : 0 < buffers.length) (hshows : Shows E B acc M good)
    (hE : ∀ a, Downloads buffers total src opts.sqIndex a → a.cmd.tagId ∉ rest → E.accepts a) (m : ℕ) :
    ∀ i done cur, i + m = chunkCount total chunk →
      Downloaded buffers total src chunk opts.sqIndex i done cur →
      Triple (Tidy (fun w => Underway E B acc buffers total src chunk M good i done w ∧
            w.accepted = acc ++ done ++ cur) { fr with pending := cur.map (·.cmd.tagId) } rest)
        (d2hChunks buffers src total opts chunk (List.range' i m))
        (Ends (fun out s => ∃ own,
            Transfers .read opts.sqIndex (· ∈ buffers.map (·.id)) src total own ∧
            Shown M good (src + i * chunk) (total - i * chunk) out ∧
            Transferred B fr rest acc own s)
          (Failed B fr rest acc (Downloads buffers total src opts.sqIndex))) := by
  induction m with
  | zero =>
    intro i done cur hi hdown
    have hcover : total ≤ i * chunk := by
      rw [show i = chunkCount total chunk by omega]
      exact le_chunkCount_mul total hchunk
    obtain rfl := hdown.finished (by omega)
    refine .pure fun s hs => ⟨done, ?_, ?_, ?_⟩
    · have htransfers := hdown.transfers
      rwa [min_eq_right (by rw [Nat.succ_mul]; omega), List.append_nil] at htransfers
    · rw [Nat.sub_eq_zero_of_le hcover]
      exact .nil
    · exact Tidy.mono hs fun w hw => ⟨hw.1.pool.base, by simpa using hw.2, hw.1.done⟩
  | succ m ih =>
    intro i done cur hi hdown
    have hi' : i < chunkCount total chunk := by omega
    have hlt := mul_chunk_lt hi'
    rw [List.range'_succ]
    refine getPending_bind ?_
    refine .bind (readNext_spec hB hbufs hcount hchunk hpos hshows hi' hdown hE)
      fun _ => .exists_pre fun next => .intro (fun _ h => h.1) fun hnext => ?_
    have hpool := stable_pool acc buffers hB
    let N : World → Prop := fun w => ∀ b, i + 1 < chunkCount total chunk →
      buffers[(i + 1) % buffers.length]? = some b →
      Fetching E (Pool E B acc buffers) acc (acc ++ (done ++ cur)) b.id
        (src + (i + 1) * chunk) M good w
    have hN : Patient N := by
      have hf : ∀ b, Patient (Fetching E (Pool E B acc buffers) acc (acc ++ (done ++ cur)) b
          (src + (i + 1) * chunk) M good) := fun _ =>
        Fetching.patient hpool.patient (hshows.mono fun w hw => hw.base)
      exact ⟨fun w d hs h b hlt hb => (hf _).step w d hs (h b hlt hb),
        fun w c rsp hs hr h b hlt hb => (hf _).pop w c rsp hs hr (h b hlt hb)⟩
    have hU : Patient (Underway E B acc buffers total src chunk M good i done) :=
      patient_underway hB hshows
    have hcur : OneChunk cur := by
      obtain ⟨b, hb⟩ : ∃ b, buffers[i % buffers.length]? = some b :=
        ⟨_, List.getElem?_eq_getElem (Nat.mod_lt _ hpos)⟩
      exact (hdown.current b hi' hb).oneChunk
    refine .bind (Triple.conseq (awaitDma_spec (acc ++ done).length
      (hU.and hN) (by simp [Pends]) (by simpa using hcur.chunked (acc ++ done) next)) (fun _ h => h.2)
      (fun _ _ h => h.2) (fun e s h => ?_) fun _ h => h) fun _ => ?_
    · obtain ⟨forgotten, hrefuses, hs⟩ := h
      refine Failed.of_await (done ++ cur ++ next) _
        (P := fun w => Underway E B acc buffers total src chunk M good i done w ∧ N w)
        (fun a ha => ?_) (fun he hp _ => by simpa using hrefuses he hp)
        (hs.mono fun w hw => ⟨⟨hw.1.1, by simpa using hw.1.2⟩, by simpa using hw.2⟩)
        fun w hw => ⟨hw.1.pool.base, hw.1.done⟩
      exact hnext.downloads a ha
    have hdrop : (cur.map (·.cmd.tagId) ++ next.map (·.cmd.tagId)).drop cur.length =
        next.map (·.cmd.tagId) := List.drop_left' (by simp)
    simp only [List.length_map, hdrop]
    refine .bind cycled_spec fun b => .intro (fun _ h => h.2) fun hb => ?_
    refine .bind ((readHost_spec ((((hU.and hN).and (.accepted _)).and
      (patient_completedFrom _ _)))).pre fun _ h => h.1) fun out => ?_
    refine .intro (p := Shown M good (src + i * chunk) (min chunk (total - i * chunk)) out)
      (fun s hs => ?_) fun hout => ?_
    · obtain ⟨hs, rfl⟩ := hs
      refine ⟨by simp, fun k hk hgood => ?_⟩
      have hfetching := hs.world.1.1.1.fetching b hi' hb
      rw [List.getElem?_map, List.getElem?_range hk]
      refine congrArg some (hfetching.arrived hs.tags.sound (hshows.mono fun w hw => hw.base)
        ?_ (hdown.current b hi' hb) hs.world.2 hk hgood)
      rw [show s.books.world.accepted = _ from hs.world.1.2]
      exact List.prefix_append ..
    refine .bind ((ih (i + 1) (done ++ cur) next (by omega) hnext).pre fun s hs =>
      Tidy.mono hs.1 fun w hw => ⟨⟨hw.1.1.1.pool, hw.1.1.2, fun c hlo hhi => ?_⟩,
        by simpa using hw.1.2⟩) fun out' => .pure fun s hs => ?_
    · by_cases hc : c < (acc ++ done).length
      · exact hw.1.1.1.done c hlo hc
      · exact hw.2 c (by omega) (by simpa [Nat.add_assoc] using hhi)
    · obtain ⟨own, htransfers, hout', hs⟩ := hs
      refine ⟨own, htransfers, ?_, hs⟩
      by_cases hmore : i + 1 < chunkCount total chunk
      · rw [min_chunk_eq hmore (Nat.lt_succ_self i)] at hout
        have hsum : total - i * chunk = chunk + (total - (i + 1) * chunk) := by
          have := mul_chunk_lt hmore
          rw [Nat.succ_mul] at this ⊢
          omega
        rw [hsum]
        refine hout.append ?_
        rwa [Nat.add_assoc, ← Nat.succ_mul]
      · have hcover : total ≤ (i + 1) * chunk := by
          rw [show i + 1 = chunkCount total chunk by omega]
          exact le_chunkCount_mul total hchunk
        have hnil : out' = [] := by
          rw [← List.length_eq_zero_iff, hout'.1]
          omega
        rw [min_eq_right (by rw [Nat.succ_mul] at hcover; omega)] at hout
        rwa [hnil, List.append_nil]

/-! ## The transfer -/

theorem d2hPipeline_spec (hB : Stable E B) (hbufs : Buffers buffers)
    (hcount : chunkCount total (stagingChunk buffers) ≤ 1 ∨ 2 ≤ buffers.length)
    (hpos : 0 < buffers.length) (htotal : 0 < total) (hshows : Shows E B acc M good)
    (hE : ∀ a, Downloads buffers total src opts.sqIndex a → a.cmd.tagId ∉ rest → E.accepts a) :
    Triple (Tidy (fun w => Pool E B acc buffers w ∧ w.accepted = acc)
        { fr with pending := [] } rest)
      (d2hPipeline buffers src total opts)
      (Ends (fun out s => ∃ own,
          Transfers .read opts.sqIndex (· ∈ buffers.map (·.id)) src total own ∧
          Shown M good src total out ∧ Transferred B fr rest acc own s)
        (Failed B fr rest acc (Downloads buffers total src opts.sqIndex))) := by
  have hchunk : 1 ≤ stagingChunk buffers := stagingChunk_pos
  have hfirst : 0 < chunkCount total (stagingChunk buffers) := by
    by_contra hzero
    have := le_chunkCount_mul total hchunk
    rw [Nat.eq_zero_of_not_pos hzero] at this
    omega
  have hloop := fun cur => d2hChunks_spec fr hB hbufs hcount
    hchunk hpos hshows hE (chunkCount total (stagingChunk buffers)) 0 [] cur (by omega)
  rw [← List.range_eq_range'] at hloop
  refine .bind (Triple.conseq
    (readChunk_spec [] (M := M) hB hbufs .true (fun _ _ _ _ _ _ _ _ => trivial) hshows
    hfirst (by simp) hE) (fun s hs => hs.mono fun w hw => ⟨⟨⟨hw.1, trivial⟩,
      fun b hb hstrict => ?_⟩, by simpa using hw.2⟩) (fun _ _ h => h)
    (fun e s ⟨next, hcarries, hs⟩ => ?_) fun _ h => h) fun _ => .exists_pre fun b =>
      .exists_pre fun next => .intro (fun _ h => h.1) fun hb => .intro (fun _ h => h.2.1)
        fun hstages => ?_
  · refine World.vacant_accepted.1 ?_
    rw [hw.2]
    exact hw.1.vacant hstrict b (List.mem_of_getElem? hb)
  · exact Failed.of_pends _ acc.length (P := fun w => B w) hcarries
      (hs.mono fun w hw => ⟨hw.1.1, by simpa using hw.2⟩) (by simp [Pends])
      fun w hw => ⟨hw, fun c hlo hhi => by omega⟩
  · have hdown : Downloaded buffers total src (stagingChunk buffers) opts.sqIndex 0 [] next := by
      refine ⟨?_, fun b' _ hb' => ?_, fun hnot => absurd hfirst hnot⟩
      · have hmem : b.id ∈ buffers.map (·.id) := List.mem_map_of_mem (List.mem_of_getElem? hb)
        have htransfers : Transfers .read opts.sqIndex (· ∈ buffers.map (·.id)) _ _ next :=
          hstages.transfers hmem
        simpa using htransfers
      · obtain rfl : b' = b := Option.some.inj (hb'.symm.trans hb)
        exact hstages
    refine (hloop next hdown).conseq (fun s hs => hs.2.2.mono fun w hw => ⟨⟨hw.1.1.base,
      fun b' _ hb' => ?_, fun c hlo hhi => ?_⟩, by simpa using hw.2⟩) (fun out s h => by simpa using h)
      (fun _ _ h => h) fun _ h => h
    · obtain rfl : b' = b := Option.some.inj (hb'.symm.trans hb)
      exact hw.1.1
    · simp only [List.append_nil] at hhi
      omega

end EtSoc

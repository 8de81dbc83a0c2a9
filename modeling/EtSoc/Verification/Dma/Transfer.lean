import EtSoc.Verification.Dma.Chunk

/-! # Transfers

What a transfer in several chunks promises, and how it fails. -/

namespace EtSoc

open Function Program

/-- The commands transfer each of the device bytes `[addr, addr + total)`, and no others. -/
structure Transfers (direction : Direction) (sqIndex : UInt16) (bufs : BufId → Prop)
    (addr total : ℕ) (own : List Accepted) : Prop where
  carries : ∀ a ∈ own, Carries direction sqIndex bufs addr total a
  cover : ∀ x < total, ∃ a ∈ own, ∃ n ∈ a.cmd.nodes,
    n.devicePhyAddr ≤ addr + x ∧ addr + x < n.devicePhyAddr + n.size

namespace Transfers
variable {direction : Direction} {sqIndex : UInt16} {bufs : BufId → Prop} {addr total : ℕ}
  {own own' : List Accepted}

theorem nil : Transfers direction sqIndex bufs addr 0 [] := ⟨by simp, by simp⟩

theorem append {more : ℕ} (h : Transfers direction sqIndex bufs addr total own)
    (h' : Transfers direction sqIndex bufs (addr + total) more own') :
    Transfers direction sqIndex bufs addr (total + more) (own ++ own') := by
  refine ⟨fun a ha => ?_, fun x hx => ?_⟩
  · rcases List.mem_append.1 ha with ha | ha
    · exact (h.carries a ha).mono (fun _ hb => hb) (by omega) (by omega)
    · exact (h'.carries a ha).mono (fun _ hb => hb) (by omega) (by omega)
  · obtain hlt | hge := Nat.lt_or_ge x total
    · obtain ⟨a, ha, n, hn, hspan⟩ := h.cover x hlt
      exact ⟨a, List.mem_append_left _ ha, n, hn, hspan⟩
    · obtain ⟨a, ha, n, hn, hlo, hhi⟩ := h'.cover (x - total) (by omega)
      exact ⟨a, List.mem_append_right _ ha, n, hn, by omega, by omega⟩

end Transfers

theorem Stages.transfers {direction : Direction} {sqIndex : UInt16} {b : BufId} {addr len : ℕ}
    {own : List Accepted} {bufs : BufId → Prop} (h : Stages direction sqIndex b addr own len)
    (hb : bufs b) : Transfers direction sqIndex bufs addr len own := by
  refine ⟨fun a ha => (h.carries (Nat.le_refl _) ha).mono (fun _ hbuf => hbuf ▸ hb) (by omega)
    (by omega), fun x hx => ?_⟩
  obtain ⟨a, ha, n, hn, hlo, hhi⟩ := h.cover hx
  obtain ⟨-, hdev, -⟩ := h.mem ha hn
  exact ⟨a, ha, n, hn, by omega, by omega⟩

/-! ## Chunks -/

section chunks
variable {total chunk i : ℕ}

theorem mul_chunk_lt (h : i < chunkCount total chunk) : i * chunk < total := by
  unfold chunkCount at h
  obtain rfl | hchunk := Nat.eq_zero_or_pos chunk
  · simp at h
  · have := (Nat.le_div_iff_mul_le hchunk).1 (Nat.succ_le_of_lt h)
    rw [Nat.succ_mul] at this
    omega

theorem le_chunkCount_mul (total : ℕ) (hchunk : 1 ≤ chunk) : total ≤ chunkCount total chunk * chunk := by
  have := Nat.div_add_mod (total + chunk - 1) chunk
  have := Nat.mod_lt (total + chunk - 1) (Nat.lt_of_lt_of_le Nat.one_pos hchunk)
  rw [chunkCount, Nat.mul_comm]
  omega

theorem min_chunk_eq {j : ℕ} (h : i < chunkCount total chunk) (hji : j < i) :
    min chunk (total - j * chunk) = chunk := by
  have hi := mul_chunk_lt h
  have hj : (j + 1) * chunk ≤ i * chunk := Nat.mul_le_mul_right chunk hji
  rw [Nat.succ_mul] at hj
  omega

theorem min_succ_chunk (h : i < chunkCount total chunk) :
    min ((i + 1) * chunk) total = min (i * chunk) total + min chunk (total - i * chunk) := by
  have hi := mul_chunk_lt h
  rw [Nat.succ_mul]
  omega

end chunks

/-! ## Failures -/

theorem Pends.accounted {acc : List Accepted} {lo : ℕ} {pending : List Tag}
    (h : Pends acc lo pending) (e : Error) (w : World) : Accounted acc lo pending e w := by
  intro c a hc ha
  refine .inr (.inl ?_)
  rw [h]
  exact List.mem_map.2 ⟨a, List.mem_of_getElem? (i := c - lo) (by
    rw [List.getElem?_drop, show lo + (c - lo) = c by omega]
    exact ha), rfl⟩

theorem Accounted.of_completed {acc : List Accepted} {lo lo' : ℕ} {tags : List Tag} {e : Error}
    {w : World} (h : Accounted acc lo tags e w) (hdone : w.CompletedFrom lo' lo) :
    Accounted acc lo' tags e w := by
  intro c a hc ha
  by_cases hlo : c < lo
  · exact .inl (hdone c hc hlo).1
  · exact h c a (by omega) ha

theorem Refuses.of_completed {acc : List Accepted} {lo lo' : ℕ} {s : Sys} (h : Refuses acc lo s)
    (hdone : s.world.CompletedFrom lo' lo) : Refuses acc lo' s := by
  obtain ⟨c, hc, hpopped, hafter⟩ := h
  refine ⟨c, hc, fun d hlo hd => ?_, hafter⟩
  by_cases hlt : d < lo
  · exact (hdone d hlo hlt).1
  · exact hpopped d (Nat.le_of_not_lt hlt) hd

/-- A transfer that started after `acc` has failed. Its commands were popped, or are in
flight under a tag that is pending or was forgotten, unless the error says that they may
be in flight. With no command pending, a tag is forgotten only after a refusal. -/
def Failed (B : World → Prop) (fr : Frame) (rest : List Tag) (acc : List Accepted)
    (carries : Accepted → Prop) (e : Error) (s : Sys) : Prop :=
  ∃ own pending forgotten, (∀ a ∈ own, carries a) ∧
    (dmaMayBeInFlight e = false → pending = [] → forgotten ≠ [] →
      Refuses (acc ++ own) acc.length s) ∧
    Tidy (fun w => B w ∧ w.accepted = acc ++ own ∧
        Accounted (acc ++ own) acc.length (pending ++ forgotten) e w)
      { fr with pending := pending, cut := forgotten ++ fr.cut } rest s

/-- A transfer that started after `acc` is done, by the commands `own`. -/
def Transferred (B : World → Prop) (fr : Frame) (rest : List Tag) (acc own : List Accepted) :
    Sys → Prop :=
  Tidy (fun w => B w ∧ w.accepted = acc ++ own ∧
    w.CompletedFrom acc.length (acc ++ own).length) { fr with pending := [] } rest

section Failed
variable {B P : World → Prop} {fr : Frame} {rest : List Tag} {acc own : List Accepted}
  {carries : Accepted → Prop} {e : Error} {s : Sys} {lo : ℕ} {pending forgotten : List Tag}

/-- A transfer has failed in awaiting its commands from `lo` on. -/
theorem Failed.of_await (own : List Accepted) (forgotten : List Tag) (hown : ∀ a ∈ own, carries a)
    (hrefuses : dmaMayBeInFlight e = false → pending = [] → forgotten ≠ [] →
      Refuses (acc ++ own) lo s)
    (h : Tidy (fun w => (P w ∧ w.accepted = acc ++ own) ∧
        Accounted (acc ++ own) lo (pending ++ forgotten) e w)
      { fr with pending := pending, cut := forgotten ++ fr.cut } rest s)
    (hP : ∀ w, P w → B w ∧ w.CompletedFrom acc.length lo) : Failed B fr rest acc carries e s :=
  ⟨own, pending, forgotten, hown, fun he hp hforgotten =>
    (hrefuses he hp hforgotten).of_completed (hP _ h.world.1.1).2, h.mono fun w hw =>
    ⟨(hP w hw.1.1).1, hw.1.2, hw.2.of_completed (hP w hw.1.1).2⟩⟩

/-- A transfer has failed otherwise, its commands from `lo` on all pending. -/
theorem Failed.of_pends (own : List Accepted) (lo : ℕ) (hown : ∀ a ∈ own, carries a)
    (h : Tidy (fun w => P w ∧ w.accepted = acc ++ own) { fr with pending := pending } rest s)
    (hpends : Pends (acc ++ own) lo pending)
    (hP : ∀ w, P w → B w ∧ w.CompletedFrom acc.length lo) : Failed B fr rest acc carries e s :=
  .of_await own [] hown (fun _ _ hne => absurd rfl hne)
    (h.mono fun w hw => ⟨hw, by simpa using hpends.accounted e w⟩) hP

end Failed

/-! ## Host memory -/

variable {fr : Frame} {rest held : List Tag}

theorem writeHost_spec {P Q : World → Prop} {buffer : DmaHostBuffer} {len : ℕ}
    {contents : Memory → Memory} {F : Error → Sys → Prop} (hP : Patient P)
    (h : ∀ w : World, w.Sound → P w → Q (w.fill buffer.id
      (Spans.blit (w.host buffer.id) 0 (contents (w.host buffer.id)) 0 len))) :
    Triple (Ready P fr held []) (writeHost buffer len contents)
      (Ends (fun _ => Ready Q fr held []) F) :=
  .bind (tick_spec hP) fun _ => .modify fun _ hs =>
    ⟨hs.tags.later (hs.tags.sound.fill _ _) rfl rfl rfl fun _ _ hc => hc,
      h _ hs.tags.sound hs.world, hs.frame⟩

theorem readHost_spec {P : World → Prop} {buffer : DmaHostBuffer} {len : ℕ}
    {F : Error → Sys → Prop} (hP : Patient P) :
    Triple (Ready P fr held []) (readHost buffer len)
      (Ends (fun out s => Ready P fr held [] s ∧
        out = (List.range len).map (s.world.host buffer.id)) F) :=
  .bind (tick_spec hP) fun _ _ hs => ⟨hs, rfl⟩

/-! ## The buffers of a pipeline -/

/-- The buffers are mapped, and not in use by the commands before the transfer. -/
structure Pool (E : Env) (B : World → Prop) (acc : List Accepted) (buffers : List DmaHostBuffer)
    (w : World) : Prop where
  base : B w
  mapped : ∀ b ∈ buffers, b.id.serial < w.nextBuf
  vacant : E.strict .staging → ∀ b ∈ buffers, w.Vacant acc b.id

variable {E : Env} {B : World → Prop} {acc : List Accepted} {buffers : List DmaHostBuffer}

theorem stable_pool (acc : List Accepted) (buffers : List DmaHostBuffer) (hB : Stable E B) :
    Stable E (Pool E B acc buffers) :=
  fun w w' hs hst h => ⟨hB w w' hs hst h.base,
    fun b hb => (h.mapped b hb).trans_le hst.grows.nextBuf,
    fun hstrict b hb => stable_vacant E acc b.id w w' hs hst (h.vacant hstrict b hb)⟩

/-- The buffers a transfer may be given. -/
structure Buffers (buffers : List DmaHostBuffer) : Prop where
  nodup : (buffers.map (·.id)).Nodup
  purpose : ∀ b ∈ buffers, b.id.purpose = .staging
  few : buffers.length ≤ 2

theorem Buffers.ne {i j : ℕ} {b b' : DmaHostBuffer} (h : Buffers buffers)
    (hi : buffers[i % buffers.length]? = some b) (hj : buffers[j % buffers.length]? = some b')
    (hji : j < i) (hij : i < j + buffers.length) : b'.id ≠ b.id := by
  intro heq
  have hget : ∀ k (c : DmaHostBuffer), buffers[k]? = some c →
      (buffers.map (·.id))[k]? = some c.id := fun k c hk => by
    rw [List.getElem?_map, hk]
    rfl
  have hlt := (List.getElem?_eq_some_iff.1 (hget _ _ hi)).1
  have hmod : i % buffers.length = j % buffers.length :=
    (List.getElem?_inj hlt h.nodup).1 ((hget _ _ hi).trans (by rw [hget _ _ hj, heq]))
  have hzero : (i - j) % buffers.length = 0 := Nat.sub_mod_eq_zero_of_mod_eq hmod
  rw [Nat.mod_eq_of_lt (by omega)] at hzero
  omega

/-- A buffer is free once the commands that use it are done. -/
theorem Pool.quiescent {w : World} {own prev : List Accepted} {b : DmaHostBuffer}
    (h : Pool E B acc buffers w) (hstrict : E.strict .staging) (hb : b ∈ buffers)
    (hacc : w.accepted = acc ++ own ++ prev)
    (hdone : w.CompletedFrom acc.length (acc ++ own).length)
    (hprev : ∀ a ∈ prev, ∀ n ∈ a.cmd.nodes, n.hostVirtAddr.buf ≠ b.id) : w.Quiescent b.id := by
  rintro c a ⟨ha, hc, n, hn, hbuf⟩
  rw [hacc] at ha
  obtain hlt | hge := Nat.lt_or_ge c (acc ++ own).length
  · obtain hlt' | hge' := Nat.lt_or_ge c acc.length
    · rw [List.append_assoc, List.getElem?_append_left hlt'] at ha
      have := h.vacant hstrict b hb c a ha ⟨n, hn, hbuf⟩
      simp [hc] at this
    · obtain ⟨-, rsp, hrsp, -⟩ := hdone c hge' hlt
      simp [hc] at hrsp
  · rw [List.getElem?_append_right hge] at ha
    exact hprev a (List.mem_of_getElem? ha) n hn hbuf

theorem stagingChunk_pos : 1 ≤ stagingChunk buffers := Nat.le_max_right ..

theorem cycled_spec {P : World → Prop} {held fresh : List Tag} {i : ℕ} {F : Error → Sys → Prop} :
    Triple (Ready P fr held fresh) (cycled buffers i)
      (Ends (fun b s => Ready P fr held fresh s ∧ buffers[i % buffers.length]? = some b) F) :=
  liftOption_spec

theorem tolerates_completedFrom {direction : Direction} {sqIndex : UInt16} {buf : BufId}
    {addr len lo hi : ℕ} :
    Tolerates E (fun w => w.CompletedFrom lo hi) direction sqIndex buf addr len :=
  fun _ _ _ h _ _ => h

end EtSoc

import EtSoc.Model.Buffers
import EtSoc.Verification.Dma.Staging

/-! # Staged transfers -/

namespace EtSoc

open Function Program

/-- What a command is that sends `data` from the buffers of one purpose. -/
def Sends (E : Env) (purpose : Purpose) (sqIndex : UInt16) (dst total : ℕ) (data : Memory)
    (a : Accepted) : Prop :=
  Carries .write sqIndex (·.purpose = purpose) dst total a ∧ (E.strict purpose → Payload data a)

/-- What a command is that reads into the buffers of one purpose. -/
def Fetches (purpose : Purpose) (sqIndex : UInt16) (src total : ℕ) (a : Accepted) : Prop :=
  Carries .read sqIndex (·.purpose = purpose) src total a

variable {E : Env} {clean : Prop} {B : World → Prop} {acc own : List Accepted} {fr : Frame}
  {rest : List Tag}

/-- The commands `own` moved all the data. -/
def Moved (clean : Prop) (B : World → Prop) (acc : List Accepted) (fr : Frame) (rest : List Tag)
    (own : List Accepted) (s : Sys) : Prop :=
  ∃ staging unmapped, Stocked (fr.restock staging unmapped) ∧
    Tidy (fun w => (Shelf clean B (acc ++ own) (fr.restock staging unmapped) w ∧
        w.accepted = acc ++ own) ∧ w.CompletedFrom acc.length (acc ++ own).length)
      (fr.restock staging unmapped) rest s

/-- A staged transfer gave up after some of its commands. -/
def Aborted (clean : Prop) (B : World → Prop) (acc : List Accepted) (fr : Frame) (rest : List Tag)
    (carries : Accepted → Prop) (s : Sys) : Prop :=
  ∃ staging unmapped own forgotten, (∀ a ∈ own, carries a) ∧
    Stocked (fr.restock staging unmapped) ∧
    Shelved (clean ∧ (forgotten ≠ [] → ¬s.Exposed)) B (acc ++ own)
      { fr.restock staging unmapped with cut := forgotten ++ fr.cut } rest s

theorem staged_spec {α : Type} {transfer : List DmaHostBuffer → M α} {total : ℕ}
    {carries : Accepted → Prop} {R : α → List Accepted → Prop} (hB : Stable E B)
    (hstocked : Stocked fr) (hp : fr.pending = []) (htotal : 1 ≤ total)
    (hstrict : E.strict .staging → clean)
    (htransfer : ∀ staging unmapped, Stocked (fr.restock staging unmapped) → 0 < staging.length →
      (chunkCount total (stagingChunk staging) ≤ 1 ∨ 2 ≤ staging.length) →
      Triple (Tidy (fun w => Pool E (Shelf clean B acc (fr.restock staging unmapped)) acc staging w ∧
          w.accepted = acc) { fr.restock [] unmapped with pending := [] } rest)
        (transfer staging)
        (Ends (fun a s => ∃ own, R a own ∧
            Transferred (Shelf clean B acc (fr.restock staging unmapped)) (fr.restock [] unmapped) rest
              acc own s)
          (Failed (Shelf clean B acc (fr.restock staging unmapped)) (fr.restock [] unmapped) rest acc
            fun a => carries a ∧ ∀ n ∈ a.cmd.nodes,
              n.hostVirtAddr.buf ∈ staging.map (·.id)))) :
    Triple (Shelved clean B acc fr rest) (staged total transfer)
      (Ends (fun a s => ∃ own, R a own ∧ Moved clean B acc fr rest own s)
        fun _ => Aborted clean B acc fr rest carries) := by
  refine .bind (R := fun _ => Shelved clean B acc fr rest)
    (setPending_spec.conseq (fun _ h => h) (fun _ s hs => ?_) (fun _ _ h => h) fun _ h => h)
    fun _ => ?_
  · rwa [Frame.setPending_nil hp] at hs
  refine .bind ((takeStaging_spec hB hstocked htotal).conseq (fun _ h => h) (fun _ _ h => h)
    (fun e s h => ?_) fun _ h => h) fun staging => .exists_pre fun unmapped =>
      .intro (fun _ h => h.1) fun hstocked' => .intro (fun _ h => h.2.1) fun hpos =>
        .intro (fun _ h => h.2.2.1) fun hcount => ?_
  · obtain ⟨staging, unmapped, hstocked', hs⟩ := h
    refine ⟨staging, unmapped, [], [], by simp, hstocked', ?_⟩
    rw [List.append_nil]
    exact hs.weaken And.left
  have hp' : (fr.restock staging unmapped).pending = [] := hp
  refine .attempt_bind ((htransfer staging unmapped hstocked' hpos hcount).pre fun s hs => ?_)
    (fun a => ?_) fun e => ?_
  · have hpending : (fr.restock [] unmapped).pending = [] := hp
    rw [Frame.setPending_nil hpending]
    refine ⟨hs.2.2.2.tags, ?_, hs.2.2.2.frame⟩
    have hshelf := hs.2.2.2.world.1
    exact ⟨⟨hshelf, hshelf.mapped, fun hst b hb =>
      (hshelf.released (hstrict hst) b hb).vacant hs.2.2.2.tags.sound⟩, hs.2.2.2.world.2⟩
  · refine .exists_pre fun own => .intro (fun _ h => h.1) fun hR => ?_
    refine .bind ((restoreStaging_ok hp').pre fun _ h => h.2)
      fun _ => .pure fun s hs => ⟨own, hR, staging, unmapped, hstocked', hs⟩
  · refine .bind (restoreStaging_err hstocked' hp'
      fun a ha => ha.2) fun _ => .throw fun s hs => ?_
    obtain ⟨kept, own, forgotten, hown, hkept, hs⟩ := hs
    exact ⟨kept, unmapped, own, forgotten, fun a ha => (hown a ha).1, hkept, hs⟩

/-! ## Host to device -/

theorem Buffers.uploads {buffers : List DmaHostBuffer} (h : Buffers buffers) {total dst : ℕ}
    {sqIndex : UInt16} {data : Memory} {a : Accepted}
    (ha : Uploads E buffers total dst sqIndex data a) :
    Sends E .staging sqIndex dst total data a ∧
      ∀ n ∈ a.cmd.nodes, n.hostVirtAddr.buf ∈ buffers.map (·.id) := by
  refine ⟨⟨ha.1.mono (fun b hb => ?_) (Nat.le_refl _) (Nat.le_refl _), ha.2⟩,
    fun n hn => (ha.1.within n hn).1⟩
  obtain ⟨c, hc, rfl⟩ := List.mem_map.1 hb
  exact h.purpose c hc

theorem Transfers.mono {direction : Direction} {sqIndex : UInt16} {bufs bufs' : BufId → Prop}
    {addr total : ℕ} (h : Transfers direction sqIndex bufs addr total own)
    (hb : ∀ b, bufs b → bufs' b) : Transfers direction sqIndex bufs' addr total own :=
  ⟨fun a ha => (h.carries a ha).mono hb (Nat.le_refl _) (Nat.le_refl _), h.cover⟩

/-- The commands `own` send `data` to the device bytes `[dst, dst + total)`. -/
structure Delivers (strict : Purpose → Prop) (purpose : Purpose) (sqIndex : UInt16) (dst total : ℕ)
    (data : Memory) (own : List Accepted) : Prop where
  transfers : Transfers .write sqIndex (·.purpose = purpose) dst total own
  payload : strict purpose → ∀ a ∈ own, Payload data a

theorem Delivers.sends {purpose : Purpose} {sqIndex : UInt16} {dst total : ℕ} {data : Memory}
    (h : Delivers E.strict purpose sqIndex dst total data own) (a : Accepted) (ha : a ∈ own) :
    Sends E purpose sqIndex dst total data a :=
  ⟨h.transfers.carries a ha, fun hstrict => h.payload hstrict a ha⟩

/-- A transfer of nothing. -/
theorem moved_nil {s : Sys} (hstocked : Stocked fr) (h : Shelved clean B acc fr rest s) :
    Moved clean B acc fr rest [] s := by
  refine ⟨fr.staging, fr.unmapped, hstocked, ?_⟩
  simp only [List.append_nil]
  exact h.mono fun w hw => ⟨hw, fun c hlo hhi => by omega⟩

section
variable {total dst src : ℕ} {opts : DmaOptions} {data : Memory} {produce : Produce}

theorem h2dStaged_spec (hB : Stable E B) (hstocked : Stocked fr) (hp : fr.pending = [])
    (hstrict : E.strict .staging → clean)
    (hproduce : ∀ count chunk, count ≤ 2 → Produces produce data count total dst chunk)
    (hE : ∀ a, Sends E .staging opts.sqIndex dst total data a → a.cmd.tagId ∉ rest →
      E.accepts a) :
    Triple (Shelved clean B acc fr rest) (h2dStaged total dst opts produce)
      (Ends (fun _ s => ∃ own, Delivers E.strict .staging opts.sqIndex dst total data own ∧
          Moved clean B acc fr rest own s)
        fun _ => Aborted clean B acc fr rest (Sends E .staging opts.sqIndex dst total data)) := by
  refine .ite (fun hzero => .pure fun s hs => ⟨[], ?_, moved_nil hstocked hs⟩) fun hpos => ?_
  · exact ⟨hzero ▸ .nil, by simp⟩
  refine staged_spec hB hstocked hp (by omega) hstrict fun staging unmapped hstocked' _ hcount => ?_
  have hbufs : Buffers staging := hstocked'.buffers
  refine (h2dPipeline_spec
    (stable_shelf hB) hbufs hcount
    (hproduce _ _ hbufs.few) fun a ha hfresh => hE a (hbufs.uploads ha).1 hfresh).conseq (fun _ h => h)
    (fun _ s ⟨own, htransfers, hpay, hs⟩ => ⟨own, ⟨htransfers.mono fun b hb => ?_,
      fun hst a ha => hpay a ha hst⟩, hs⟩)
    (fun e s ⟨own, pending, forgotten, hown, hs⟩ => ⟨own, pending, forgotten,
      fun a ha => hbufs.uploads (hown a ha), hs⟩) fun _ h => h
  obtain ⟨c, hc, rfl⟩ := List.mem_map.1 hb
  exact hbufs.purpose c hc

theorem memcpyH2dOpts_spec {bytes : List UInt8} (hB : Stable E B) (hstocked : Stocked fr)
    (hp : fr.pending = []) (hstrict : E.strict .staging → clean)
    (hE : ∀ a, Sends E .staging opts.sqIndex dst bytes.length
      (fun x => bytes.getD (x - dst) 0) a → a.cmd.tagId ∉ rest → E.accepts a) :
    Triple (Shelved clean B acc fr rest) (memcpyH2dOpts bytes dst opts)
      (Ends (fun _ s => ∃ own, Delivers E.strict .staging opts.sqIndex dst bytes.length
          (fun x => bytes.getD (x - dst) 0) own ∧ Moved clean B acc fr rest own s)
        fun _ => Aborted clean B acc fr rest (Sends E .staging opts.sqIndex dst bytes.length
          fun x => bytes.getD (x - dst) 0)) := by
  refine h2dStaged_spec hB hstocked hp hstrict (fun count chunk _ i old _ _ k _ => ?_) hE
  rw [show dst + i * chunk + k - dst = i * chunk + k by omega]

theorem fillRegion_spec {region : DeviceRegion} {value : UInt8} (hB : Stable E B)
    (hstocked : Stocked fr) (hp : fr.pending = []) (hstrict : E.strict .staging → clean)
    (hE : ∀ a, Sends E .staging 0 region.addr region.size (fun _ => value) a →
      a.cmd.tagId ∉ rest → E.accepts a) :
    Triple (Shelved clean B acc fr rest) (fillRegion region value)
      (Ends (fun _ s => ∃ own, Delivers E.strict .staging 0 region.addr region.size (fun _ => value) own ∧
          Moved clean B acc fr rest own s)
        fun _ => Aborted clean B acc fr rest
          (Sends E .staging 0 region.addr region.size fun _ => value)) := by
  refine h2dStaged_spec hB hstocked hp hstrict
    (fun count chunk hcount i old _ hold k hk => ?_) hE
  split
  · rfl
  · exact hold (by omega) k (by omega)

/-! ## Device to host -/

theorem memcpyD2hOpts_spec {M : Memory} {good : ℕ → Prop} (hB : Stable E B)
    (hstocked : Stocked fr) (hp : fr.pending = []) (hstrict : E.strict .staging → clean)
    (hshows : Shows E B acc M good)
    (hE : ∀ a, Fetches .staging opts.sqIndex src total a → a.cmd.tagId ∉ rest → E.accepts a) :
    Triple (Shelved clean B acc fr rest) (memcpyD2hOpts src total opts)
      (Ends (fun out s => ∃ own, (Transfers .read opts.sqIndex (·.purpose = .staging) src total own ∧
          Shown M good src total out) ∧ Moved clean B acc fr rest own s)
        fun _ => Aborted clean B acc fr rest (Fetches .staging opts.sqIndex src total)) := by
  refine .ite (fun hzero => .pure fun s hs => ⟨[], ?_, moved_nil hstocked hs⟩) fun hpos => ?_
  · exact hzero ▸ ⟨.nil, .nil⟩
  refine staged_spec hB hstocked hp (by omega) hstrict
    fun staging unmapped hstocked' hlen hcount => ?_
  have hbufs : Buffers staging := hstocked'.buffers
  have hpurpose : ∀ b, b ∈ staging.map (·.id) → b.purpose = .staging := by
    rintro b hb
    obtain ⟨c, hc, rfl⟩ := List.mem_map.1 hb
    exact hbufs.purpose c hc
  refine (d2hPipeline_spec
    (stable_shelf hB) hbufs hcount hlen
    (Nat.pos_of_ne_zero hpos) (hshows.mono fun w hw => hw.base)
    fun a ha hfresh => hE a (ha.mono hpurpose (Nat.le_refl _) (Nat.le_refl _)) hfresh).conseq (fun _ h => h)
    (fun out s ⟨own, htransfers, hshown, hs⟩ => ⟨own, ⟨htransfers.mono hpurpose, hshown⟩, hs⟩)
    (fun e s ⟨own, pending, forgotten, hown, hs⟩ => ⟨own, pending, forgotten,
      fun a ha => ⟨(hown a ha).mono hpurpose (Nat.le_refl _) (Nat.le_refl _),
        fun n hn => ((hown a ha).within n hn).1⟩, hs⟩) fun _ h => h

end

end EtSoc

import EtSoc.Verification.Dma.Memcpy

/-! # Transfers of pinned buffers -/

namespace EtSoc

open Function Program

variable {E : Env} {B : World → Prop} {acc : List Accepted} {fr : Frame} {rest : List Tag}
  {host : DmaHostBuffer} {addr len : ℕ} {opts : DmaOptions} {command : String}

/-- Awaiting every pending command of a transfer that pushed all of them. -/
theorem awaitAll_spec {P : World → Prop} {own : List Accepted} {carries : Accepted → Prop}
    {timeout : Option Duration} (hP : Patient P) (hPB : ∀ w, P w → B w)
    (hown : ∀ a ∈ own, carries a) (hchunk : OneChunk own) :
    Triple (Tidy (fun w => P w ∧ w.accepted = acc ++ own)
        { fr with pending := own.map (·.cmd.tagId) } rest)
      (do let tags ← getPending; awaitDma tags.length timeout command)
      (Ends (fun _ => Transferred P fr rest acc own) (Failed B fr rest acc carries)) := by
  refine getPending_bind ((awaitDma_spec acc.length hP
    (by simp [Pends]) (by simpa using hchunk.chunked acc [])).conseq (fun _ h => h)
    (fun _ s hs => ?_) (fun e s hs => ?_) fun _ h => h)
  · have hdrop : (own.map (·.cmd.tagId)).drop (own.map (·.cmd.tagId)).length = [] :=
      List.drop_length
    simp only [hdrop] at hs
    exact hs.2.mono fun w hw => ⟨hw.1.1, hw.1.2, by simpa using hw.2⟩
  · obtain ⟨forgotten, hrefuses, hs⟩ := hs
    exact Failed.of_await _ _ hown (fun he hp _ => hrefuses he hp) hs
      fun w hw => ⟨hPB w hw, fun c hlo hhi => by omega⟩

theorem transferPinned_write {data : Memory} (hB : Stable E B)
    (hE : ∀ a, Carries .write opts.sqIndex (· = host.id) addr len a →
      (E.strict host.id.purpose → Payload data a) → a.cmd.tagId ∉ rest → E.accepts a) :
    Triple (Tidy (fun w => Loaded E B host.id addr len data w ∧ w.accepted = acc)
        { fr with pending := [] } rest)
      (transferPinned .write addr opts command host len)
      (Ends (fun _ s => ∃ own, Transferred (fun w => B w ∧
            Stages .write opts.sqIndex host.id addr own len ∧
            (E.strict host.id.purpose → ∀ a ∈ own, Payload data a)) fr rest acc own s)
        (Failed B fr rest acc fun a => Carries .write opts.sqIndex (· = host.id) addr len a ∧
          (E.strict host.id.purpose → Payload data a))) := by
  have hloaded : Patient (Loaded E B host.id addr len data) := patient_loaded hB.patient
  refine .bind (Triple.conseq (pushWrite_spec hB .true
    (fun _ _ _ _ _ _ => trivial) hE) (fun s hs => hs.mono fun w hw => ⟨⟨hw.1, trivial⟩, hw.2⟩)
    (fun _ _ h => h) (fun e s h => ?_) fun _ h => h) fun _ => .exists_pre fun own =>
      .intro (fun _ h => h.1) fun hpay => .intro (fun _ h => h.2.1) fun hstages => ?_
  · obtain ⟨own, off, hoff, hpay, hstages, hs⟩ := h
    exact Failed.of_pends _ acc.length
      (P := fun w => Loaded E B host.id addr len data w ∧ True)
      (fun a ha => ⟨hstages.carries hoff ha, hpay a ha⟩) hs (by simp [Pends])
      fun w hw => ⟨hw.1.base, fun c hlo hhi => by omega⟩
  · refine (awaitAll_spec hloaded (fun w hw => hw.base)
      (fun a ha => ⟨hstages.carries (Nat.le_refl _) ha, hpay a ha⟩) hstages.oneChunk).conseq
      (fun s hs => hs.2.2.mono fun w hw => ⟨hw.1.1, hw.2⟩)
      (fun _ s hs => ⟨own, hs.mono fun w hw => ⟨⟨hw.1.base, hstages, ?_⟩, hw.2⟩⟩)
      (fun _ _ h => h) fun _ h => h
    exact fun hst a ha => hpay a ha hst

theorem transferPinned_read {M : Memory} {good : ℕ → Prop} (hB : Stable E B)
    (hshows : Shows E B acc M good)
    (hE : ∀ a, Carries .read opts.sqIndex (· = host.id) addr len a → a.cmd.tagId ∉ rest →
      E.accepts a) :
    Triple (Tidy (fun w => Fetching E B acc acc host.id addr M good w ∧ w.accepted = acc)
        { fr with pending := [] } rest)
      (transferPinned .read addr opts command host len)
      (Ends (fun _ s => ∃ own, Transferred (fun w => B w ∧
            Stages .read opts.sqIndex host.id addr own len ∧
            ∀ k < len, good (addr + k) → w.host host.id k = M (addr + k)) fr rest acc own s)
        (Failed B fr rest acc (Carries .read opts.sqIndex (· = host.id) addr len))) := by
  have hfetching : Patient (Fetching E B acc acc host.id addr M good) :=
    Fetching.patient hB.patient hshows
  refine .bind (Triple.conseq (pushRead_spec hB .true
    (fun _ _ _ _ _ _ => trivial) hshows hE)
    (fun s hs => hs.mono fun w hw => ⟨⟨hw.1, trivial⟩, hw.2⟩)
    (fun _ _ h => h) (fun e s h => ?_) fun _ h => h) fun _ => .exists_pre fun own =>
      .intro (fun _ h => h.1) fun hstages => ?_
  · obtain ⟨own, off, hoff, hstages, hs⟩ := h
    exact Failed.of_pends _ acc.length
      (P := fun w => Fetching E B acc acc host.id addr M good w ∧ True)
      (fun a ha => hstages.carries hoff ha) hs (by simp [Pends])
      fun w hw => ⟨hw.1.base, fun c hlo hhi => by omega⟩
  · refine (awaitAll_spec hfetching (fun w hw => hw.base)
      (fun a ha => hstages.carries (Nat.le_refl _) ha) hstages.oneChunk).conseq
      (fun s hs => hs.2.mono fun w hw => ⟨hw.1.1, hw.2⟩)
      (fun _ s hs => ⟨own, hs.tags, ?_, hs.frame⟩) (fun _ _ h => h) fun _ h => h
    obtain ⟨hfetch, hacc, hdone⟩ := hs.world
    refine ⟨⟨hfetch.base, hstages, fun k hk hgood => ?_⟩, hacc, hdone⟩
    refine hfetch.arrived hs.tags.sound hshows ?_ hstages ?_ hk hgood
    · rw [show s.books.world.accepted = _ from hacc]
    · rwa [List.length_append] at hdone

/-! ## The driver method -/

/-- What became of a pinned buffer: it is as before, or was leaked. -/
def Kept (buffer buffer' : PinnedBuffer) : Prop :=
  buffer' = buffer ∨ buffer' = ⟨none, 0, buffer.device⟩

/-- A transfer of a pinned buffer returned early, with nothing done. -/
def Skipped (buffer buffer' : PinnedBuffer) (result : Except Error Unit) : Prop :=
  buffer' = buffer ∧ (result = .ok () → buffer.host = none ∨ buffer.len = 0)

/-- A transfer of a pinned buffer failed; the buffer is kept only if its commands were
popped, unless a tag was forgotten and the run exposed. -/
def PinnedFailed (B : World → Prop) (acc : List Accepted) (fr : Frame) (rest : List Tag)
    (carries : Accepted → Prop) (buffer buffer' : PinnedBuffer) (s : Sys) : Prop :=
  buffer.host ≠ none ∧ ∃ own forgotten, (∀ a ∈ own, carries a) ∧ Kept buffer buffer' ∧
    Tidy (fun w => (B w ∧ w.accepted = acc ++ own) ∧
        (buffer'.host ≠ none → (forgotten ≠ [] → ¬s.Exposed) →
          ∀ c, acc.length ≤ c → c < (acc ++ own).length → w.popped c = true))
      { fr with cut := forgotten ++ fr.cut } rest s

theorem pinnedTransfer_spec (carries : Accepted → Prop) {P : World → Prop}
    {buffer : PinnedBuffer} {transfer : DmaHostBuffer → ℕ → M Unit}
    {R : List Accepted → World → Prop} {F : Error → Sys → Prop} (hp : fr.pending = [])
    (hbuf : ∀ a, buffer.host ≠ none → carries a →
      ∀ n ∈ a.cmd.nodes, n.hostVirtAddr.buf.purpose ≠ .arguments)
    (htransfer : ∀ host, buffer.host = some host → Triple (Tidy (fun w => P w ∧ w.accepted = acc)
        { fr with pending := [] } rest) (transfer host buffer.len)
      (Ends (fun _ s => ∃ own, Transferred (fun w => B w ∧ R own w) fr rest acc own s)
        (Failed B fr rest acc carries))) :
    Triple (Tidy (fun w => P w ∧ w.accepted = acc) fr rest) (pinnedTransfer buffer transfer)
      (Ends (fun r s =>
          (Skipped buffer r.1 r.2 ∧ Tidy (fun w => P w ∧ w.accepted = acc) fr rest s) ∨
          (r = (buffer, .ok ()) ∧ ∃ own, Transferred (fun w => B w ∧ R own w) fr rest acc own s) ∨
          (∃ e, r.2 = .error e) ∧ PinnedFailed B acc fr rest carries buffer r.1 s) F) := by
  refine .read_bind fun dev => .pre (P := Tidy (fun w => P w ∧ w.accepted = acc) fr rest) ?_
    fun _ h => h.1
  refine .ite (fun _ => .pure fun s hs => .inl ⟨⟨rfl, by simp⟩, hs⟩) fun _ => ?_
  split
  · rename_i hnone
    exact .pure fun s hs => .inl ⟨⟨rfl, fun _ => .inl hnone⟩, hs⟩
  rename_i host hhost
  have hsome : buffer.host ≠ none := by simp [hhost]
  refine .ite (fun hzero => .pure fun s hs => .inl ⟨⟨rfl, fun _ => .inr hzero⟩, hs⟩) fun _ => ?_
  refine .bind setPending_spec fun _ => ?_
  refine .attempt_bind ((htransfer host hhost).pre fun s hs => ?_) (fun u => ?_) fun e => ?_
  · refine ⟨?_, hs.world, hs.frame⟩
    have := hs.tags
    rwa [hp] at this
  · refine .exists_pre fun own => .bind abandonPending_spec fun uncollected => .pure fun s hs => ?_
    exact .inr (.inl ⟨rfl, own, hs.2⟩)
  · refine .exists_pre fun own => .exists_pre fun pending => .exists_pre fun forgotten =>
      .intro (fun _ h => h.1) fun hown => ?_
    let fr' : Frame := { fr with pending := [], cut := forgotten ++ fr.cut }
    let W : World → Prop := fun w => B w ∧ w.accepted = acc ++ own ∧
      Accounted (acc ++ own) acc.length (pending ++ forgotten) e w
    have hframe : fr' = { fr with cut := forgotten ++ fr.cut } := by
      cases fr
      simp_all [fr']
    have hleak : ∀ s, Ready W fr' (fr'.cut ++ rest) [] s →
        PinnedFailed B acc fr rest carries buffer ⟨none, 0, buffer.device⟩ s := by
      refine fun s hs => ⟨hsome, own, forgotten, hown, .inr rfl, ?_,
        ⟨⟨hs.world.1, hs.world.2.1⟩, fun hhost => absurd rfl hhost⟩, hs.frame.trans hframe⟩
      change TagInv (fr.pending ++ _) [] _
      rw [hp]
      exact hs.tags
    by_cases hnone : pending = []
    · -- The buffer may be kept, so that the refusal matters.
      let Q : Sys → Prop := fun s => dmaMayBeInFlight e = false → forgotten ≠ [] →
        Refuses (acc ++ own) acc.length s
      refine .bind (R := fun uncollected s => uncollected = false ∧
          Ready W fr' (fr'.cut ++ rest) [] s ∧ Q s)
        ((abandonPending_none (P := W) (Q := Q) rfl fun _ _ h => h).pre
          fun s hs => ?_) fun uncollected => .and_pre fun huncollected =>
            .ite (fun _ => .pure fun s hs => .inr (.inr ⟨⟨e, rfl⟩, hleak s hs.1⟩)) fun hkeep => ?_
      · subst hnone
        exact ⟨hs.2.2, fun he => hs.2.1 he rfl⟩
      · have hfly : dmaMayBeInFlight e = false := by simpa [huncollected, mustLeak] using hkeep
        refine .pure fun s hs => .inr (.inr ⟨⟨e, rfl⟩, hsome, own, forgotten, hown, .inl rfl, ?_,
          ⟨⟨hs.1.world.1, hs.1.world.2.1⟩, fun _ hclean c hlo hhi => ?_⟩,
          hs.1.frame.trans hframe⟩)
        · change TagInv (fr.pending ++ _) [] _
          rw [hp]
          exact hs.1.tags
        · have ha := List.getElem?_eq_getElem hhi
          obtain hpop | htag | he := hs.1.world.2.2 c _ hlo ha
          · exact hpop
          · have htag : (acc ++ own)[c].cmd.tagId ∈ forgotten := by simpa [hnone] using htag
            have hacc : s.world.accepted = acc ++ own := hs.1.world.2.1
            have hmem : (acc ++ own)[c] ∈ own := by
              have ha := ha
              rw [List.getElem?_append_right hlo] at ha
              exact List.mem_of_getElem? ha
            by_contra hpop
            have hne : forgotten ≠ [] := List.ne_nil_of_mem htag
            exact hclean hne (Refuses.exposed (hacc ▸ hs.2 hfly hne) hs.1.tags
              (by rw [hacc]; exact ha) hlo (by simp [fr', htag])
              (hbuf _ hsome (hown _ hmem)) (by simpa using hpop))
          · simp [hfly] at he
    · refine .bind (abandonPending_spec.pre fun _ h => h.2.2) fun uncollected => .and_pre
        fun huncollected => .ite (fun _ => .pure fun s hs => .inr (.inr ⟨⟨e, rfl⟩, hleak s hs⟩))
          fun hkeep => ?_
      refine absurd ?_ hkeep
      cases pending with
      | nil => exact absurd rfl hnone
      | cons tag tags => simp [mustLeak, huncollected]

end EtSoc

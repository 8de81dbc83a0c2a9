import EtSoc.Verification.Session.Transfers

/-! # Calls that transfer pinned buffers -/

namespace EtSoc

open Function Program

variable {E : Env} {clean clean' : Prop} {X B : World → Prop} {acc own : List Accepted} {fr fr' : Frame}
  {handles : List Handle} {pinned pinned' : List DmaHostBuffer} {carries : Accepted → Prop}
  {buffer : PinnedBuffer} {opts : DmaOptions} {addr : ℕ}

/-- The staging buffers are none of the commands' business. -/
theorem Shelf.foreign (fr' : Frame) {w : World} (h : Shelf clean B acc fr w) (hidle : Idle fr)
    (hstaging : fr'.staging = fr.staging) (hunmapped : fr'.unmapped = fr.unmapped)
    (hown : ∀ a ∈ own, ∀ n ∈ a.cmd.nodes, n.hostVirtAddr.buf.purpose ≠ .staging) :
    Shelf clean B (acc ++ own) fr' w := by
  have happend : ∀ b : BufId, b.purpose = .staging → w.Released acc b → w.Released (acc ++ own) b := by
    refine fun b hb hreleased => hreleased.append fun c a hc ha ⟨n, hn, hbuf⟩ => ?_
    rw [List.getElem?_append_right hc] at ha
    exact absurd (hbuf ▸ hb) (hown a (List.mem_of_getElem? ha) n hn)
  refine ⟨h.base, h.known, by rw [hstaging]; exact h.mapped, by rw [hunmapped]; exact h.gone, ?_, ?_⟩
  · rw [hstaging]
    exact fun hclean b hb => happend _ (hidle.stocked.buffers.purpose b hb) (h.released hclean b hb)
  · rw [hunmapped]
    exact fun hclean b hb hp => happend _ hp (h.discarded hclean b hb hp)

/-- Of the pinned buffers, the commands transfer only `host`, unless it is gone. -/
theorem Racked.append {w : World} {host : DmaHostBuffer} (h : Racked clean acc pinned w)
    (hdistinct : Distinct pinned) (hhost : host ∈ pinned)
    (hsub : pinned' ⊆ pinned)
    (hown : ∀ a ∈ own, ∀ n ∈ a.cmd.nodes, n.hostVirtAddr.buf = host.id)
    (hpopped : host ∈ pinned' → clean →
      ∀ c, acc.length ≤ c → c < (acc ++ own).length → w.popped c = true) :
    Racked clean (acc ++ own) pinned' w := by
  refine ⟨fun b hb => h.mapped b (hsub hb), fun hclean b hb =>
    (h.released hclean b (hsub hb)).append fun c a hc ha ⟨n, hn, hbuf⟩ => ?_⟩
  have hmem := ha
  rw [List.getElem?_append_right hc] at hmem
  have heq : b.id = host.id := hbuf.symm.trans (hown a (List.mem_of_getElem? hmem) n hn)
  have hsame : b = host := by
    obtain ⟨i, hi⟩ := List.getElem?_of_mem (hsub hb)
    obtain ⟨j, hj⟩ := List.getElem?_of_mem hhost
    have hget : ∀ k (d : DmaHostBuffer), pinned[k]? = some d → (pinned.map (·.id))[k]? = some d.id :=
      fun k d hk => by rw [List.getElem?_map, hk]; rfl
    have hlt := (List.getElem?_eq_some_iff.1 (hget i b hi)).1
    obtain rfl : i = j := (List.getElem?_inj hlt hdistinct.nodup).1
      ((hget i b hi).trans (by rw [hget j host hj, heq]))
    exact Option.some.inj (hi.symm.trans hj)
  exact hpopped (hsame ▸ hb) hclean c hc (List.getElem?_eq_some_iff.1 ha).1

/-- What a transfer of a pinned buffer that fails leaves. -/
def PinnedGaveUp (clean : Prop) (carries : Accepted → Prop) (X : World → Prop)
    (acc : List Accepted) (fr : Frame)
    (handles : List Handle) (pinned : List DmaHostBuffer) (buffer buffer' : PinnedBuffer)
    (s : Sys) : Prop :=
  ∃ own fr', (∀ a ∈ own, carries a) ∧ Kept buffer buffer' ∧ Restocks fr fr' ∧ Idle fr' ∧
    ∀ pinned', pinned' ⊆ pinned →
      (buffer'.host = none → ∀ host, buffer.host = some host → host ∉ pinned') →
      Rests (clean ∧ s.Clean) X (acc ++ own) fr' handles pinned' s

/-- What a transfer of a pinned buffer may end in; `R` describes its commands and the world
after a success. -/
inductive PinnedEnd (clean : Prop) (R : DmaHostBuffer → List Accepted → World → Prop)
    (carries : Accepted → Prop)
    (X : World → Prop) (acc : List Accepted) (fr : Frame) (handles : List Handle)
    (pinned : List DmaHostBuffer) (buffer : PinnedBuffer) :
    PinnedBuffer × Except Error Unit → Sys → Prop where
  | skipped {buffer' : PinnedBuffer} {result : Except Error Unit} {s : Sys}
      (h : Skipped buffer buffer' result) (hs : Rests clean X acc fr handles pinned s) :
      PinnedEnd clean R carries X acc fr handles pinned buffer (buffer', result) s
  | done {host : DmaHostBuffer} {own : List Accepted} {s : Sys} (hhost : buffer.host = some host)
      (hown : ∀ a ∈ own, ∀ n ∈ a.cmd.nodes, n.hostVirtAddr.buf = host.id)
      (hs : Rests clean (fun w => (X w ∧ R host own w) ∧ w.CompletedFrom acc.length (acc ++ own).length)
        (acc ++ own) fr handles pinned s) :
      PinnedEnd clean R carries X acc fr handles pinned buffer (buffer, .ok ()) s
  | failed {buffer' : PinnedBuffer} {e : Error} {s : Sys}
      (h : PinnedGaveUp clean carries X acc fr handles pinned buffer buffer' s) :
      PinnedEnd clean R carries X acc fr handles pinned buffer (buffer', .error e) s

theorem pinnedTransfer_rests {P : World → Prop} {transfer : DmaHostBuffer → ℕ → M Unit}
    {R : DmaHostBuffer → List Accepted → World → Prop} {F : Error → Sys → Prop} (hidle : Idle fr)
    (hdistinct : Distinct pinned) (hmem : ∀ host, buffer.host = some host → host ∈ pinned)
    (hcarries : ∀ host a, buffer.host = some host → carries a →
      ∀ n ∈ a.cmd.nodes, n.hostVirtAddr.buf = host.id)
    (hR : ∀ host own w, buffer.host = some host → R host own w →
      ∀ a ∈ own, ∀ n ∈ a.cmd.nodes, n.hostVirtAddr.buf = host.id)
    (htransfer : ∀ host, buffer.host = some host → Triple
      (Tidy (fun w => (Shelf clean (Base clean X acc fr handles pinned) acc fr w ∧ P w) ∧ w.accepted = acc)
        { fr with pending := [] } (owed handles)) (transfer host buffer.len)
      (Ends (fun _ s => ∃ own, Transferred (fun w => Shelf clean (Base clean X acc fr handles pinned) acc fr w ∧
            R host own w) fr (owed handles) acc own s)
        (Failed (Shelf clean (Base clean X acc fr handles pinned) acc fr) fr (owed handles) acc carries))) :
    Triple (fun s => Rests clean X acc fr handles pinned s ∧ P s.world) (pinnedTransfer buffer transfer)
      (Ends (PinnedEnd clean R carries X acc fr handles pinned buffer) F) := by
  have hforeign : ∀ {own : List Accepted} {host : DmaHostBuffer}, host ∈ pinned →
      (∀ a ∈ own, ∀ n ∈ a.cmd.nodes, n.hostVirtAddr.buf = host.id) →
      ∀ a ∈ own, ∀ n ∈ a.cmd.nodes, n.hostVirtAddr.buf.purpose ≠ .staging :=
    fun hhost hown a ha n hn => by
      rw [hown a ha n hn, hdistinct.purpose _ hhost]
      simp
  refine (pinnedTransfer_spec carries
    (B := Shelf clean (Base clean X acc fr handles pinned) acc fr)
    (P := fun w => Shelf clean (Base clean X acc fr handles pinned) acc fr w ∧ P w)
    (R := fun own w => ∃ host, buffer.host = some host ∧ R host own w) (F := F)
    hidle.pending (fun a hsome ha n hn => ?_) fun host hhost => ?_).conseq
    (fun s hs => ⟨hs.1.tags, ⟨⟨hs.1.world.1, hs.2⟩, hs.1.world.2⟩, hs.1.frame⟩) (fun r s hs => ?_)
    (fun _ _ h => h) fun _ h => h
  · obtain ⟨host, hhost⟩ := Option.ne_none_iff_exists'.1 hsome
    rw [hcarries host a hhost ha n hn, hdistinct.purpose host (hmem host hhost)]
    simp
  · refine (htransfer host hhost).conseq (fun _ h => h) (fun _ s ⟨own, hs⟩ => ⟨own, ?_⟩)
      (fun _ _ h => h) fun _ h => h
    exact hs.mono fun w hw => ⟨⟨hw.1.1, host, hhost, hw.1.2⟩, hw.2⟩
  obtain ⟨buffer', result⟩ := r
  obtain ⟨hskip, hs⟩ | ⟨heq, own, hs⟩ | ⟨⟨e, he⟩, hsome, own, forgotten, hown, hkept, hs⟩ := hs
  · exact .skipped hskip (Ready.mono hs fun w hw => ⟨hw.1.1, hw.2⟩)
  · obtain ⟨rfl, rfl⟩ := Prod.mk.inj heq
    have ⟨⟨hw, host, hhost, hr⟩, hacc, hdone⟩ := hs.world
    have hbufs := hR host own _ hhost hr
    have hin := hmem host hhost
    refine .done hhost hbufs ?_
    have hpending : { fr with pending := [] } = fr := Frame.setPending_nil hidle.pending
    have hs' : Tidy (fun w => w = s.world) fr (owed handles) s := by
      have := hs.tags
      exact ⟨by rw [hidle.pending]; exact this, rfl, hs.frame.trans hpending⟩
    refine hs'.mono fun w hw => ?_
    subst hw
    refine ⟨(hw.foreign _ hidle rfl rfl (hforeign hin hbufs)).mono fun hbase => ⟨⟨⟨hbase.extra, hr⟩,
      hdone⟩, hbase.follows, hbase.racked.append hdistinct hin (fun _ h => h) hbufs
        fun _ _ c hlo hhi => (hdone c hlo hhi).1, hbase.slotted⟩, hacc⟩
  · obtain rfl : result = .error e := he
    refine .failed ⟨own, { fr with cut := forgotten ++ fr.cut }, hown, hkept,
      ⟨fr.staging, fr.unmapped, forgotten, rfl⟩, ⟨⟨hidle.stocked.buffers, hidle.stocked.positive,
        hidle.stocked.apart, hidle.stocked.capacity⟩, hidle.pending, hidle.arguments⟩,
      fun pinned' hsub hgone => hs.mono fun w hw => ?_⟩
    obtain ⟨⟨hw, hacc⟩, hpopped⟩ := hw
    have hcut : s.cut = forgotten ++ fr.cut := congrArg Frame.cut hs.frame
    obtain ⟨host, hhost⟩ := Option.ne_none_iff_exists'.1 hsome
    have hin := hmem host hhost
    have hbufs : ∀ a ∈ own, ∀ n ∈ a.cmd.nodes, n.hostVirtAddr.buf = host.id :=
      fun a ha => hcarries host a hhost (hown a ha)
    refine ⟨((hw.weaken And.left).foreign { fr with cut := forgotten ++ fr.cut } hidle rfl rfl
      (hforeign hin hbufs)).mono fun hbase => ?_, hacc⟩
    have hracked : Racked (clean ∧ s.Clean) acc pinned w := (hbase.weaken And.left).racked
    exact ⟨hbase.extra, hbase.follows, hracked.append hdistinct hin hsub hbufs fun hhere hclean =>
      hpopped (fun hnone => hgone hnone host hhost hhere) (hclean.2.of_forgotten hcut),
      hbase.slotted⟩

/-- What a command is that transfers the pinned buffer. -/
def TransfersPinned (direction : Direction) (sqIndex : UInt16) (addr : ℕ) (buffer : PinnedBuffer)
    (a : Accepted) : Prop :=
  ∃ host, buffer.host = some host ∧ Carries direction sqIndex (· = host.id) addr buffer.len a

theorem TransfersPinned.buf_eq {direction : Direction} {sqIndex : UInt16} {host : DmaHostBuffer}
    {a : Accepted} (h : TransfersPinned direction sqIndex addr buffer a)
    (hhost : buffer.host = some host) : ∀ n ∈ a.cmd.nodes, n.hostVirtAddr.buf = host.id := by
  obtain ⟨host', hhost', ha⟩ := h
  obtain rfl : host' = host := Option.some.inj (hhost'.symm.trans hhost)
  exact fun n hn => (ha.within n hn).1

/-- The commands `own` send the contents `m` of the pinned buffer. -/
def SentPinned (strict : Purpose → Prop) (sqIndex : UInt16) (addr len : ℕ) (m : BufId → Memory)
    (host : DmaHostBuffer) (own : List Accepted) (_ : World) : Prop :=
  Stages .write sqIndex host.id addr own len ∧
    (strict .pinned → ∀ a ∈ own, Payload (fun x => m host.id (x - addr)) a)

/-- The commands `own` fetched bytes of `M` into the pinned buffer. -/
def FetchedPinned (M : Memory) (good : ℕ → Prop) (sqIndex : UInt16) (addr len : ℕ)
    (host : DmaHostBuffer) (own : List Accepted) (w : World) : Prop :=
  Stages .read sqIndex host.id addr own len ∧
    ∀ k < len, good (addr + k) → w.host host.id k = M (addr + k)

theorem Base.quiescent {w : World} {host : DmaHostBuffer}
    (h : Base clean X acc fr handles pinned w) (hs : w.Sound) (hacc : w.accepted = acc)
    (hclean : clean) (hhost : host ∈ pinned) : w.Quiescent host.id := by
  rw [← World.vacant_accepted, hacc]
  exact (h.racked.released hclean host hhost).vacant hs

theorem memcpyH2dPinned_rests {m : BufId → Memory} {F : Error → Sys → Prop} (hX : Stable E X)
    (hidle : Idle fr) (hdistinct : Distinct pinned)
    (hmem : ∀ host, buffer.host = some host → host ∈ pinned)
    (hstrict : E.strict .pinned → clean)
    (hE : ∀ host a, buffer.host = some host →
      Carries .write opts.sqIndex (· = host.id) addr buffer.len a →
      (E.strict .pinned → Payload (fun x => m host.id (x - addr)) a) → E.accepts a) :
    Triple (fun s => Rests clean X acc fr handles pinned s ∧ s.world.host = m)
      (memcpyH2dPinnedOpts buffer addr opts)
      (Ends (PinnedEnd clean (SentPinned E.strict opts.sqIndex addr buffer.len m)
        (TransfersPinned .write opts.sqIndex addr buffer) X acc fr handles pinned buffer) F) := by
  refine pinnedTransfer_rests (P := fun w => w.host = m) hidle hdistinct hmem
    (fun host a hhost ha => ha.buf_eq hhost)
    (fun host own w _ hr a ha n hn => (hr.1.mem ha hn).1) fun host hhost => ?_
  have hin := hmem host hhost
  have hpurpose := hdistinct.purpose host hin
  refine (transferPinned_write
    (E := E.without (owed handles)) (B := Shelf clean (Base clean X acc fr handles pinned) acc fr)
    (stable_shelf (stable_base hX))
    fun a ha hpay hfresh => ⟨hE host a hhost ha (hpurpose ▸ hpay), hfresh⟩).conseq (fun s hs => ?_)
    (fun _ s ⟨own, hs⟩ => ⟨own, hs.mono fun w hw => ⟨⟨hw.1.1, hw.1.2.1, fun hst a ha =>
      hw.1.2.2 (hpurpose ▸ hst) a ha⟩, hw.2⟩⟩)
    (fun e s ⟨own, pending, forgotten, hown, hs⟩ => ⟨own, pending, forgotten,
      fun a ha => ⟨host, hhost, (hown a ha).1⟩, hs⟩) fun _ h => h
  obtain ⟨⟨hw, hm⟩, hacc⟩ := hs.world
  refine ⟨hs.tags, ⟨⟨hw, hw.base.racked.mapped host hin, fun hst => ?_, fun hst k hk => ?_⟩, hacc⟩,
    hs.frame⟩
  · rw [hpurpose] at hst
    exact (hw.base.quiescent hs.tags.sound hacc (hstrict hst) hin).only true
  · rw [hm, Nat.add_sub_cancel_left]

theorem memcpyD2hPinned_rests {M : Memory} {good : ℕ → Prop} {F : Error → Sys → Prop}
    (hX : Stable E X) (hidle : Idle fr) (hdistinct : Distinct pinned)
    (hmem : ∀ host, buffer.host = some host → host ∈ pinned)
    (hstrict : E.strict .pinned → clean) (hshows : Shows E X acc M good)
    (hE : ∀ a, TransfersPinned .read opts.sqIndex addr buffer a → E.accepts a) :
    Triple (Rests clean X acc fr handles pinned) (memcpyD2hPinnedOpts addr buffer opts)
      (Ends (PinnedEnd clean (FetchedPinned M good opts.sqIndex addr buffer.len)
        (TransfersPinned .read opts.sqIndex addr buffer) X acc fr handles pinned buffer) F) := by
  refine (pinnedTransfer_rests (P := fun _ => True) hidle hdistinct hmem
    (fun host a hhost ha => ha.buf_eq hhost)
    (fun host own w _ hr a ha n hn => (hr.1.mem ha hn).1) fun host hhost => ?_).pre
    fun _ h => ⟨h, trivial⟩
  have hin := hmem host hhost
  have hpurpose := hdistinct.purpose host hin
  have hshows' : Shows (E.without (owed handles))
      (Shelf clean (Base clean X acc fr handles pinned) acc fr) acc M
      good :=
    ⟨hshows.strict, fun x hx w hw => hshows.executes x hx w hw.base.extra,
      fun w hs hw => hshows.mem w hs hw.base.extra⟩
  refine (transferPinned_read (B := Shelf clean (Base clean X acc fr handles pinned) acc fr)
    (stable_shelf (stable_base hX)) hshows'
    fun a ha hfresh => ⟨hE a ⟨host, hhost, ha⟩, hfresh⟩).conseq (fun s hs => ?_)
    (fun _ s ⟨own, hs⟩ => ⟨own, hs⟩)
    (fun e s ⟨own, pending, forgotten, hown, hs⟩ => ⟨own, pending, forgotten,
      fun a ha => ⟨host, hhost, hown a ha⟩, hs⟩) fun _ h => h
  obtain ⟨⟨hw, -⟩, hacc⟩ := hs.world
  have hquiet : (E.without (owed handles)).strict host.id.purpose → s.world.Quiescent host.id :=
    fun hst => hw.base.quiescent hs.tags.sound hacc (hstrict (hpurpose ▸ hst)) hin
  have hinit : Fetching (E.without (owed handles)) (Shelf clean (Base clean X acc fr handles pinned) acc fr)
      s.world.accepted s.world.accepted host.id addr M good s.world :=
    .init hw (hw.base.racked.mapped host hin) List.prefix_rfl (by simp)
      fun hst => World.vacant_accepted.2 (hquiet hst)
  rw [hacc] at hinit
  exact ⟨hs.tags, ⟨hinit, hacc⟩, hs.frame⟩

end EtSoc

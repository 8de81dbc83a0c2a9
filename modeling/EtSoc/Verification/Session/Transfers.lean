import EtSoc.Verification.Session.Quiet

/-! # Calls that transfer through the staging buffers -/

namespace EtSoc

open Function Program

variable {E : Env} {clean clean' : Prop} {X : World → Prop} {acc own own' : List Accepted} {fr fr' : Frame}
  {handles : List Handle} {pinned : List DmaHostBuffer} {carries : Accepted → Prop}

/-- The staging buffers are others, and some tags may have been forgotten. -/
def Restocks (fr fr' : Frame) : Prop :=
  ∃ staging unmapped forgotten,
    fr' = { fr.restock staging unmapped with cut := forgotten ++ fr.cut }

theorem Restocks.refl (fr : Frame) : Restocks fr fr := ⟨fr.staging, fr.unmapped, [], rfl⟩

theorem Restocks.trans {fr'' : Frame} (h : Restocks fr fr') (h' : Restocks fr' fr'') :
    Restocks fr fr'' := by
  obtain ⟨staging, unmapped, forgotten, rfl⟩ := h
  obtain ⟨staging', unmapped', forgotten', rfl⟩ := h'
  exact ⟨staging', unmapped', forgotten' ++ forgotten, by simp [Frame.restock]⟩

/-- The commands `own`, described by `R`, were all answered with success. -/
def Finished (clean : Prop) (R : List Accepted → Prop) (X : World → Prop) (acc : List Accepted) (fr : Frame)
    (handles : List Handle) (pinned : List DmaHostBuffer) (s : Sys) : Prop :=
  ∃ own fr', R own ∧ Restocks fr fr' ∧ Idle fr' ∧
    Rests clean (fun w => X w ∧ w.CompletedFrom acc.length (acc ++ own).length) (acc ++ own) fr' handles
      pinned s

/-- A call gave up after some commands. -/
def GaveUp (clean : Prop) (carries : Accepted → Prop) (X : World → Prop) (acc : List Accepted) (fr : Frame)
    (handles : List Handle) (pinned : List DmaHostBuffer) (s : Sys) : Prop :=
  ∃ own fr', (∀ a ∈ own, carries a) ∧ Restocks fr fr' ∧ Idle fr' ∧
    Rests (clean ∧ s.Clean) X (acc ++ own) fr' handles pinned s

theorem GaveUp.none {s : Sys} (hidle : Idle fr) (h : Rests clean X acc fr handles pinned s) :
    GaveUp clean carries X acc fr handles pinned s :=
  ⟨[], fr, by simp, .refl fr, hidle, by
    rw [List.append_nil]
    exact h.weaken And.left⟩

theorem Finished.none {R : List Accepted → Prop} {s : Sys} (hidle : Idle fr) (hR : R [])
    (h : Rests clean X acc fr handles pinned s) : Finished clean R X acc fr handles pinned s := by
  refine ⟨[], fr, hR, .refl fr, hidle, ?_⟩
  rw [List.append_nil]
  exact Rests.mono h fun w hw => ⟨hw, fun c hlo hhi => by omega⟩

/-- The pinned buffers are none of the commands' business. -/
theorem Base.append (fr' : Frame) {w : World} (h : Base clean X acc fr handles pinned w)
    (hdistinct : Distinct pinned)
    (hslots : fr'.argsSlots = fr.argsSlots)
    (hown : ∀ a ∈ own, ∀ n ∈ a.cmd.nodes, n.hostVirtAddr.buf.purpose ≠ .pinned) :
    Base clean X (acc ++ own) fr' handles pinned w := by
  refine ⟨h.extra, h.follows, ⟨h.racked.mapped, fun hclean host hh =>
    (h.racked.released hclean host hh).append fun c a hc ha ⟨n, hn, hbuf⟩ => ?_⟩, ?_⟩
  · rw [List.getElem?_append_right hc] at ha
    refine absurd ?_ (hown a (List.mem_of_getElem? ha) n hn)
    rw [hbuf]
    exact hdistinct.purpose host hh
  · rw [hslots]
    exact h.slotted

/-- A staged transfer, as the caller sees it. -/
theorem staged_rests {α : Type} {m : M α} {R : α → List Accepted → Prop} (hidle : Idle fr)
    (hdistinct : Distinct pinned)
    (hcarries : ∀ a, carries a → ∀ n ∈ a.cmd.nodes, n.hostVirtAddr.buf.purpose = .staging)
    (hR : ∀ out own, R out own → ∀ a ∈ own, ∀ n ∈ a.cmd.nodes,
      n.hostVirtAddr.buf.purpose = .staging)
    (h : Triple (Rests clean X acc fr handles pinned) m
      (Ends (fun out s => ∃ own, R out own ∧
          Moved clean (Base clean X acc fr handles pinned) acc fr (owed handles) own s)
        fun _ => Aborted clean (Base clean X acc fr handles pinned) acc fr (owed handles) carries)) :
    Triple (Rests clean X acc fr handles pinned) m
      (Ends (fun out => Finished clean (R out) X acc fr handles pinned)
        fun _ => GaveUp clean carries X acc fr handles pinned) := by
  have hforeign : ∀ {b : BufId}, b.purpose = .staging → b.purpose ≠ .pinned := fun hb => by simp [hb]
  refine h.conseq (fun _ h => h) (fun out s hs => ?_) (fun e s hs => ?_) fun _ h => h
  · obtain ⟨own, hown, staging, unmapped, hstocked, hs⟩ := hs
    have hrestocks : Restocks fr (fr.restock staging unmapped) := ⟨staging, unmapped, [], rfl⟩
    refine ⟨own, fr.restock staging unmapped, hown, hrestocks,
      ⟨hstocked, hidle.pending, hidle.arguments⟩, hs.mono fun w hw =>
        ⟨hw.1.1.mono fun hbase => ?_, hw.1.2⟩⟩
    exact (hbase.append (fr.restock staging unmapped) hdistinct rfl
      fun a ha n hn => hforeign (hR out own hown a ha n hn)).mono fun hX => ⟨hX, hw.2⟩
  · obtain ⟨staging, unmapped, own, forgotten, hown, hstocked, hs⟩ := hs
    have hrestocks : Restocks fr { fr.restock staging unmapped with cut := forgotten ++ fr.cut } :=
      ⟨staging, unmapped, forgotten, rfl⟩
    refine ⟨own, _, hown, hrestocks, ⟨⟨hstocked.buffers, hstocked.positive, hstocked.apart,
      hstocked.capacity⟩, hidle.pending, hidle.arguments⟩, (hs.weaken fun hclean => ⟨hclean.1,
        hclean.2.of_forgotten (congrArg Frame.cut hs.frame)⟩).mono fun w hw =>
          ⟨hw.1.mono fun hbase => ?_, hw.2⟩⟩
    exact (hbase.weaken And.left).append _ hdistinct rfl
      fun a ha n hn => hforeign (hcarries a (hown a ha) n hn)

/-- One transfer after the other. -/
theorem Finished.bind (carries : Accepted → Prop) {α β : Type} {m : M α} {k : α → M β}
    {R : List Accepted → Prop} {Q : β → List Accepted → Prop}
    (hm : Triple (Rests clean X acc fr handles pinned) m
      (Ends (fun _ => Finished clean R X acc fr handles pinned)
        fun _ => GaveUp clean carries X acc fr handles pinned))
    (hRcarries : ∀ own, R own → ∀ a ∈ own, carries a)
    (hk : ∀ a own fr', R own → Restocks fr fr' → Idle fr' →
      Triple (Rests clean (fun w => X w ∧ w.CompletedFrom acc.length (acc ++ own).length) (acc ++ own) fr'
          handles pinned) (k a)
        (Ends (fun b => Finished clean (Q b) (fun w => X w ∧ w.CompletedFrom acc.length (acc ++ own).length)
            (acc ++ own) fr' handles pinned)
          fun _ => GaveUp clean carries (fun w => X w ∧ w.CompletedFrom acc.length (acc ++ own).length)
            (acc ++ own) fr' handles pinned)) :
    Triple (Rests clean X acc fr handles pinned) (m >>= k)
      (Ends (fun b => Finished clean (fun own => ∃ own₁ own₂, own = own₁ ++ own₂ ∧ R own₁ ∧ Q b own₂) X acc
          fr handles pinned)
        fun _ => GaveUp clean carries X acc fr handles pinned) := by
  refine .bind hm fun a => .exists_pre fun own => .exists_pre fun fr' => .and_pre fun hR =>
    .and_pre fun hrestocks => .and_pre fun hidle => ?_
  refine (hk a own fr' hR hrestocks hidle).conseq (fun _ h => h) (fun b s hs => ?_)
    (fun e s hs => ?_) fun _ h => h
  · obtain ⟨own', fr'', hR', hrestocks', hidle', hs⟩ := hs
    refine ⟨own ++ own', fr'', ⟨own, own', rfl, hR, hR'⟩, hrestocks.trans hrestocks',
      hidle', ?_⟩
    rw [List.append_assoc] at hs
    refine Rests.mono hs fun w hw => ⟨hw.1.1, fun c hlo hhi => ?_⟩
    obtain hlt | hge := Nat.lt_or_ge c (acc ++ own).length
    · exact hw.1.2 c hlo hlt
    · exact hw.2 c hge (by simpa using hhi)
  · obtain ⟨own', fr'', hown', hrestocks', hidle', hs⟩ := hs
    refine ⟨own ++ own', fr'', fun a ha => ?_, hrestocks.trans hrestocks', hidle', ?_⟩
    · rcases List.mem_append.1 ha with ha | ha
      · exact hRcarries own hR a ha
      · exact hown' a ha
    · rw [← List.append_assoc]
      exact Rests.mono hs fun w hw => hw.1

/-! ## Host to device -/

section
variable {opts : DmaOptions} {dst total : ℕ} {data : Memory} {produce : Produce}

theorem Sends.purpose_eq {purpose : Purpose} {sqIndex : UInt16} {a : Accepted}
    (h : Sends E purpose sqIndex dst total data a) :
    ∀ n ∈ a.cmd.nodes, n.hostVirtAddr.buf.purpose = purpose :=
  fun n hn => (h.1.within n hn).1

theorem memcpyH2d_rests (acc : List Accepted) (handles : List Handle) (opts : DmaOptions)
    {bytes : List UInt8} (hX : Stable E X) (hidle : Idle fr)
    (hdistinct : Distinct pinned) (hstrict : E.strict .staging → clean)
    (hE : ∀ a, Sends E .staging opts.sqIndex dst bytes.length (fun x => bytes.getD (x - dst) 0) a →
      E.accepts a) :
    Triple (Rests clean X acc fr handles pinned) (memcpyH2dOpts bytes dst opts)
      (Ends (fun _ => Finished clean (Delivers E.strict .staging opts.sqIndex dst bytes.length
          fun x => bytes.getD (x - dst) 0) X acc fr handles pinned)
        fun _ => GaveUp clean (Sends E .staging opts.sqIndex dst bytes.length
          fun x => bytes.getD (x - dst) 0) X acc fr handles pinned) :=
  staged_rests (R := fun _ => _) hidle hdistinct (fun _ ha => ha.purpose_eq)
    (fun _ _ hown a ha => (hown.sends a ha).purpose_eq)
    (memcpyH2dOpts_spec (E := E.without (owed handles)) (stable_base hX) hidle.stocked hidle.pending
      hstrict fun a ha hfresh => ⟨hE a ha, hfresh⟩)

theorem fillRegion_rests {region : DeviceRegion} {value : UInt8} (hX : Stable E X) (hidle : Idle fr)
    (hdistinct : Distinct pinned) (hstrict : E.strict .staging → clean)
    (hE : ∀ a, Sends E .staging 0 region.addr region.size (fun _ => value) a → E.accepts a) :
    Triple (Rests clean X acc fr handles pinned) (fillRegion region value)
      (Ends (fun _ => Finished clean (Delivers E.strict .staging 0 region.addr region.size fun _ => value) X acc
          fr handles pinned)
        fun _ => GaveUp clean (Sends E .staging 0 region.addr region.size fun _ => value) X acc fr handles
          pinned) :=
  staged_rests (R := fun _ => _) hidle hdistinct (fun _ ha => ha.purpose_eq)
    (fun _ _ hown a ha => (hown.sends a ha).purpose_eq)
    (fillRegion_spec (E := E.without (owed handles)) (stable_base hX) hidle.stocked hidle.pending
      hstrict fun a ha hfresh => ⟨hE a ha, hfresh⟩)

/-! ## Device to host -/

theorem memcpyD2h_rests {M : Memory} {good : ℕ → Prop} {src : ℕ} (hX : Stable E X) (hidle : Idle fr)
    (hdistinct : Distinct pinned) (hstrict : E.strict .staging → clean)
    (hshows : Shows E X acc M good)
    (hE : ∀ a, Fetches .staging opts.sqIndex src total a → E.accepts a) :
    Triple (Rests clean X acc fr handles pinned) (memcpyD2hOpts src total opts)
      (Ends (fun out => Finished clean (fun own => Transfers .read opts.sqIndex (·.purpose = .staging) src
          total own ∧ Shown M good src total out) X acc fr handles pinned)
        fun _ => GaveUp clean (Fetches .staging opts.sqIndex src total) X acc fr handles pinned) := by
  have hshows' : Shows (E.without (owed handles)) (Base clean X acc fr handles pinned) acc M good :=
    ⟨hshows.strict, fun x hx w hw => hshows.executes x hx w hw.extra,
      fun w hs hw => hshows.mem w hs hw.extra⟩
  exact staged_rests (R := fun out own => Transfers .read opts.sqIndex (·.purpose = .staging) src
      total own ∧ Shown M good src total out) hidle hdistinct (fun _ ha n hn => (ha.within n hn).1)
    (fun _ _ hown a ha n hn => ((hown.1.carries a ha).within n hn).1)
    (memcpyD2hOpts_spec (stable_base hX) hidle.stocked hidle.pending hstrict hshows'
      fun a ha hfresh => ⟨hE a ha, hfresh⟩)

end

end EtSoc

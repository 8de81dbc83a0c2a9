import EtSoc.Verification.Session.PinnedCalls

/-! # Calls on kernel launches -/

namespace EtSoc

open Function Program

variable {E : Option ArgsSlot → Env} {clean : Prop} {X : Option ArgsSlot → World → Prop}
  {P : World → Prop}
  {acc own : List Accepted} {fr fr' : Frame} {handles : List Handle} {pinned : List DmaHostBuffer}
  {kernel : LoadedKernel} {opts : LaunchOptions} {N : ℕ} {o : Option ArgsSlot}
  {host : Option DmaHostBuffer}

/-! ## The frame of a launch -/

/-- Every buffer of a slot was there before, or is the one just filled. -/
def HostsFrom (fr : Frame) (host : Option DmaHostBuffer) (fr' : Frame) : Prop :=
  ∀ slot ∈ fr'.argsSlots, ∀ h, slot.host = some h →
    host = some h ∨ ∃ slot' ∈ fr.argsSlots, slot'.host = some h

theorem mem_modify {α : Type} {l : List α} {i : ℕ} {f : α → α} {x : α} (h : x ∈ l.modify i f) :
    x ∈ l ∨ ∃ y ∈ l, x = f y := by
  obtain ⟨j, hj⟩ := List.getElem?_of_mem h
  rw [List.getElem?_modify] at hj
  obtain ⟨y, hy, heq⟩ := Option.map_eq_some_iff.1 hj
  have hmem := List.mem_of_getElem? hy
  split at heq
  · exact .inr ⟨y, hmem, heq.symm⟩
  · exact .inl (heq ▸ hmem)

theorem HostsFrom.setSlot (h : HostsFrom fr host fr') {i : ℕ} {f : ArgsSlot → ArgsSlot}
    (hf : ∀ slot, (f slot).host = slot.host ∨ (f slot).host = host) :
    HostsFrom fr host (fr'.setSlot i f) := by
  intro slot hslot b hb
  obtain hslot | ⟨slot', hslot', rfl⟩ := mem_modify hslot
  · exact h slot hslot b hb
  · obtain heq | heq := hf slot'
    · exact h slot' hslot' b (heq.symm.trans hb)
    · exact .inl (heq.symm.trans hb)

theorem Chosen.hostsFrom {len i : ℕ} {slot : ArgsSlot} (h : Chosen fr len fr' i slot)
    (host : Option DmaHostBuffer) : HostsFrom fr host fr' := by
  cases h with
  | reused => exact fun slot hslot b hb => .inr ⟨slot, hslot, hb⟩
  | fresh =>
    intro slot hslot b hb
    rcases List.mem_append.1 hslot with hslot | hslot
    · exact .inr ⟨slot, hslot, hb⟩
    · obtain rfl := List.mem_singleton.1 hslot
      simp at hb

theorem ArgsFailed.hostsFrom (h : ArgsFailed E N fr opts o host fr' own) : HostsFrom fr host fr' := by
  cases h with
  | none => exact fun slot hslot b hb => .inr ⟨slot, hslot, hb⟩
  | unmapped hc => exact (hc.hostsFrom Option.none).setSlot fun _ => .inr rfl
  | @staged i slot fr₁ host own len hc =>
    exact (hc.hostsFrom (some host)).setSlot fun _ => .inr rfl

theorem HostsFrom.launched (h : HostsFrom fr host fr') {slot : Option ℕ} {tag : Tag} :
    HostsFrom fr host (fr'.launched slot tag) := by
  cases slot with
  | none => exact h
  | some i => exact h.setSlot fun _ => .inl rfl

/-- The fields that a launch leaves alone. -/
structure Frame.Same (fr fr' : Frame) : Prop where
  staging : fr'.staging = fr.staging
  stagingCapacity : fr'.stagingCapacity = fr.stagingCapacity
  unmapped : fr'.unmapped = fr.unmapped

theorem Chosen.same {len i : ℕ} {slot : ArgsSlot} (h : Chosen fr len fr' i slot) : fr.Same fr' := by
  cases h <;> exact ⟨rfl, rfl, rfl⟩

theorem ArgsFailed.same (h : ArgsFailed E N fr opts o host fr' own) : fr.Same fr' := by
  cases h with
  | none => exact ⟨rfl, rfl, rfl⟩
  | unmapped hc | staged hc => exact ⟨hc.same.1, hc.same.2, hc.same.3⟩

theorem Frame.Same.launched (h : fr.Same fr') {slot : Option ℕ} {tag : Tag} :
    fr.Same (fr'.launched slot tag) := by
  cases slot <;> exact ⟨h.1, h.2, h.3⟩

theorem Idle.launch (h : Idle fr) (hsame : fr.Same fr') (hhosts : HostsFrom fr host fr')
    (hhost : ∀ b, host = some b → b.id.purpose = .arguments) (hpending : fr'.pending = []) :
    Idle fr' := by
  refine ⟨⟨?_, ?_, ?_, ?_⟩, hpending, fun slot hslot b hb => ?_⟩
  · rw [hsame.staging]
    exact h.stocked.buffers
  · rw [hsame.staging]
    exact h.stocked.positive
  · rw [hsame.staging, hsame.unmapped]
    exact h.stocked.apart
  · rw [hsame.stagingCapacity]
    exact h.stocked.capacity
  · obtain hb | ⟨slot', hslot', hb⟩ := hhosts slot hslot b hb
    · exact hhost b hb
    · exact h.arguments slot' hslot' b hb

/-! ## Launching -/

/-- The world during a launch. -/
def Launching (clean : Prop) (X : World → Prop) (N : ℕ) (acc : List Accepted) (fr : Frame)
    (handles : List Handle)
    (pinned : List DmaHostBuffer) (w : World) : Prop :=
  Shelf clean (Base clean X acc fr handles pinned) acc fr w ∧ N ≤ w.nextBuf

theorem stable_launching {E : Env} {X : World → Prop} (hX : Stable E X) :
    Stable (E.without (owed handles)) (Launching clean X N acc fr handles pinned) :=
  (stable_shelf (stable_base hX)).and fun _ _ _ hst h => h.trans hst.grows.nextBuf

/-- What is needed to launch a kernel: properties of the world, one for each slot that may
be chosen, which outlast the commands of the launch. -/
structure LaunchReady (E : Option ArgsSlot → Env) (X : Option ArgsSlot → World → Prop)
    (P : World → Prop) (N : ℕ) (acc : List Accepted) (fr : Frame) (kernel : LoadedKernel)
    (opts : LaunchOptions) : Prop where
  stable : ∀ o, Stable (E o) (X o)
  bare : ∀ w : World, w.Sound → P w → w.accepted = acc → X none w
  ready : ∀ fr' i slot, Chosen fr opts.args.length fr' i slot → ∀ w : World, w.Sound → P w →
    w.accepted = acc → w.Free slot → X (some slot) w ∧
      ∀ host, slot.host = some host → (E (some slot)).strict .arguments → w.Quiescent host.id
  args : ∀ fr' i slot b a, Chosen fr opts.args.length fr' i slot → HostOf N slot b →
    Carries .write opts.sqIndex (· = b) slot.region.addr opts.args.length a →
    ((E (some slot)).strict .arguments →
      Payload (fun x => opts.args.getD (x - slot.region.addr) 0) a) →
    (E (some slot)).accepts a
  launch : ∀ a, IsLaunch kernel opts 0 a → (E none).accepts a
  launchArgs : ∀ fr' i slot a, Chosen fr opts.args.length fr' i slot →
    IsLaunch kernel opts slot.region.addr a → (E (some slot)).accepts a

/-- A chosen slot has a buffer only if it was there before. -/
theorem Chosen.old {len i : ℕ} {slot : ArgsSlot} (h : Chosen fr len fr' i slot)
    {b : DmaHostBuffer} (hhost : slot.host = some b) : slot ∈ fr.argsSlots := by
  cases h with
  | reused hslot => exact List.mem_of_getElem? hslot
  | fresh => simp at hhost

theorem LaunchReady.plan (clean : Prop) (handles : List Handle) (pinned : List DmaHostBuffer)
    (h : LaunchReady E X P N acc fr kernel opts) (hidle : Idle fr) :
    LaunchPlan (fun o => (E o).without (owed handles))
      (fun o => Launching clean (X o) N acc fr handles pinned)
      (Launching clean P N acc fr handles pinned) N acc fr (owed handles) kernel opts where
  stable o := stable_launching (h.stable o)
  bare w hs hw hacc := ⟨hw.1.mono fun hbase => hbase.mono fun hp => h.bare w hs hp hacc, hw.2⟩
  ready fr' i slot hc w hs hw hacc hfree := by
    have hready := h.ready fr' i slot hc w hs hw.1.base.extra hacc hfree
    refine ⟨⟨hw.1.mono fun hbase => hbase.mono fun _ => hready.1, hw.2⟩, hw.1.known,
      fun host hh => ⟨⟨hw.1.mono fun hbase => hbase.mono fun _ => hready.1, hw.2⟩,
        hw.1.base.slotted slot (hc.old hh) host hh, fun hst => hready.2 host hh ?_⟩⟩
    rwa [hidle.arguments slot (hc.old hh) host hh] at hst
  mapped slot w hw := hw.2
  purpose fr' i slot host hc hh := hidle.arguments slot (hc.old hh) host hh
  args fr' i slot b a hc hof ha hpay hfresh := ⟨h.args fr' i slot b a hc hof ha hpay, hfresh⟩
  launch a ha hfresh := ⟨h.launch a ha, hfresh⟩
  launchArgs fr' i slot a hc ha hfresh := ⟨h.launchArgs fr' i slot a hc ha, hfresh⟩

/-- The commands for the arguments use buffers of that purpose only. -/
theorem ArgsFailed.purpose (h : ArgsFailed E N fr opts o host fr' own) (hidle : Idle fr) :
    (∀ b, host = some b → b.id.purpose = .arguments) ∧
      ∀ a ∈ own, ∀ n ∈ a.cmd.nodes, n.hostVirtAddr.buf.purpose = .arguments := by
  have hof : ∀ {i len : ℕ} {slot : ArgsSlot} {fr₁ : Frame} {b : BufId}, Chosen fr len fr₁ i slot →
      HostOf N slot b → b.purpose = .arguments := by
    rintro i len slot fr₁ b hc (⟨h, hh, rfl⟩ | ⟨-, hb, -⟩)
    · exact hidle.arguments slot (hc.old hh) h hh
    · exact hb
  cases h with
  | none => simp
  | unmapped => simp
  | staged hc hlen hs =>
    refine ⟨fun b hb => Option.some.inj hb ▸ hof hc hs.1, fun a ha n hn => ?_⟩
    rw [(hs.2.1.mem ha hn).1]
    exact hof hc hs.1

theorem Launching.rests {w : World} {X : World → Prop}
    (h : Launching clean X N acc fr handles pinned w) (hidle : Idle fr) (hdistinct : Distinct pinned)
    (hsame : fr.Same fr') (hhosts : HostsFrom fr host fr')
    (hmapped : ∀ b, host = some b → b.id.serial < w.nextBuf)
    (hown : ∀ a ∈ own, ∀ n ∈ a.cmd.nodes, n.hostVirtAddr.buf.purpose = .arguments) :
    Shelf clean (Base clean X (acc ++ own) fr' handles pinned) (acc ++ own) fr' w := by
  refine (h.1.foreign _ hidle hsame.staging hsame.unmapped fun a ha n hn => by
    simp [hown a ha n hn]).mono fun hbase => ⟨hbase.extra, hbase.follows,
      ⟨hbase.racked.mapped, fun hclean b hb => (hbase.racked.released hclean b hb).append
        fun c a hc ha ⟨n, hn, hbuf⟩ => ?_⟩, fun slot hslot b hb => ?_⟩
  · rw [List.getElem?_append_right hc] at ha
    have := hown a (List.mem_of_getElem? ha) n hn
    rw [hbuf, hdistinct.purpose b hb] at this
    simp at this
  · obtain hb | ⟨slot', hslot', hb⟩ := hhosts slot hslot b hb
    · exact hmapped b hb
    · exact hbase.slotted slot' hslot' b hb

theorem ArgsAt.of_without {tags : List Tag} {slot : Option ℕ} {pointerToArgs : ℕ}
    (h : ArgsAt (fun o => (E o).without tags) N fr opts o host slot pointerToArgs fr' own) :
    ArgsAt E N fr opts o host slot pointerToArgs fr' own := by
  cases h with
  | bare h => exact .bare h
  | staged hc hs => exact .staged hc hs

theorem ArgsFailed.of_without {tags : List Tag}
    (h : ArgsFailed (fun o => (E o).without tags) N fr opts o host fr' own) :
    ArgsFailed E N fr opts o host fr' own := by
  cases h with
  | none => exact .none
  | unmapped hc h => exact .unmapped hc h
  | staged hc hlen hs => exact .staged hc hlen hs

/-- The tags of a launch are those of its commands. -/
theorem linked_of_pends {lo : ℕ} {tags : List Tag} {w : World} (h : Pends acc lo tags)
    (hnodup : tags.Nodup) (hw : w.accepted = acc) : w.Linked lo tags :=
  fun _ _ hi => h.latest hnodup hi hw

/-- The handle of a launch whose command is the `c`th. -/
def Handle.new (launch : PendingLaunch) (opts : LaunchOptions) (c : ℕ) : Handle :=
  ⟨launch, .held, opts, c⟩

theorem pends_launch {a : Accepted} {launch : PendingLaunch} (htag : a.cmd.tagId = launch.tag)
    (hargs : launch.argsDma = if opts.barrier then own.map (·.cmd.tagId) else []) :
    Pends (acc ++ own ++ [a]) (Handle.new launch opts (acc ++ own).length).first
      (Handle.new launch opts (acc ++ own).length).tags := by
  simp only [Pends, Handle.first, Handle.tags, Handle.new, hargs, ← htag]
  split
  · simp [List.append_assoc]
  · simp

/-- The commands for the arguments are one chunk. -/
theorem ArgsAt.oneChunk {slot : Option ℕ} {pointerToArgs : ℕ}
    (h : ArgsAt E N fr opts o host slot pointerToArgs fr' own) : OneChunk own := by
  cases h with
  | bare => simp [OneChunk]
  | staged _ hs => exact hs.2.1.oneChunk

theorem chunked_launch {a : Accepted} {launch : PendingLaunch} (h : OneChunk own)
    (hargs : launch.argsDma = if opts.barrier then own.map (·.cmd.tagId) else []) :
    Chunked (acc ++ own ++ [a]) (Handle.new launch opts (acc ++ own).length).first
      (Handle.new launch opts (acc ++ own).length).launch.argsDma.length := by
  simp only [Handle.first, Handle.new, hargs]
  split
  · simpa using h.chunked acc [a]
  · exact fun i hi hlt => absurd hlt (Nat.not_lt_zero i)

/-- A kernel was launched, as the command `a`. -/
def LaunchedAs (clean : Prop) (E : Option ArgsSlot → Env) (X : Option ArgsSlot → World → Prop) (N : ℕ)
    (acc : List Accepted) (fr : Frame) (handles : List Handle) (pinned : List DmaHostBuffer)
    (kernel : LoadedKernel) (opts : LaunchOptions) (launch : PendingLaunch) (s : Sys) : Prop :=
  ∃ o host slot pointerToArgs fr₁ fr' own a,
    ArgsAt E N fr opts o host slot pointerToArgs fr₁ own ∧ IsLaunch kernel opts pointerToArgs a ∧
    fr' = { fr₁.launched slot launch.tag with pending := [] } ∧ Idle fr' ∧
    a.cmd.tagId = launch.tag ∧
    Rests clean (X o) (acc ++ own ++ [a]) fr' (.new launch opts (acc ++ own).length :: handles) pinned s

/-- A launch failed, perhaps after some commands for its arguments. -/
def LaunchGaveUp (clean : Prop) (E : Option ArgsSlot → Env) (X : Option ArgsSlot → World → Prop) (N : ℕ)
    (acc : List Accepted) (fr : Frame) (handles : List Handle) (pinned : List DmaHostBuffer)
    (opts : LaunchOptions) (s : Sys) : Prop :=
  ∃ o host fr₁ fr' own forgotten, ArgsFailed E N fr opts o host fr₁ own ∧
    fr' = { fr₁ with pending := [], cut := forgotten ++ fr.cut } ∧ Idle fr' ∧
    Rests clean (X o) (acc ++ own) fr' handles pinned s

theorem launchAsync_rests (hidle : Idle fr) (hdistinct : Distinct pinned)
    (hready : LaunchReady E X P N acc fr kernel opts) :
    Triple (fun s => Rests clean P acc fr handles pinned s ∧ N ≤ s.world.nextBuf)
      (launchAsync kernel opts)
      (Ends (LaunchedAs clean E X N acc fr handles pinned kernel opts)
        fun _ => LaunchGaveUp clean E X N acc fr handles pinned opts) := by
  refine (launchAsync_spec (hready.plan clean handles pinned hidle)
    hidle.pending).conseq (fun s hs => ?_) (fun launch s hs => ?_) (fun e s hs => ?_) fun _ h => h
  · exact ⟨hs.1.tags, ⟨⟨hs.1.world.1, hs.2⟩, hs.1.world.2⟩, hs.1.frame⟩
  · obtain ⟨o, host, slot, pointerToArgs, fr₁, own, a, hargs, ha, htag, hdma, hs⟩ := hs
    have hargs := hargs.of_without
    have hpurpose := hargs.failed.purpose hidle
    have hsame : fr.Same { fr₁.launched slot launch.tag with pending := [] } :=
      ⟨hargs.failed.same.launched.1, hargs.failed.same.launched.2, hargs.failed.same.launched.3⟩
    have hhosts : HostsFrom fr host { fr₁.launched slot launch.tag with pending := [] } :=
      hargs.failed.hostsFrom.launched
    refine ⟨o, host, slot, pointerToArgs, fr₁, _, own, a, hargs, ha, rfl,
      hidle.launch hsame hhosts hpurpose.1 rfl, htag, ?_⟩
    let handle := Handle.new launch opts (acc ++ own).length
    have hheld : launch.argsDma ++ launch.tag :: owed handles = owed (handle :: handles) :=
      (owed_cons handle handles).symm
    have hnodup : handle.tags.Nodup := by
      refine (List.Sublist.nodup ?_ hs.tags.nodup)
      rw [List.nil_append, hheld]
      exact (List.sublist_append_left ..).trans ((List.sublist_append_right ..).trans
        (List.sublist_append_right ..))
    rw [hheld] at hs
    refine hs.mono fun w hw => ?_
    obtain ⟨hlaunching, w₀, -, ⟨⟨-, hmapped⟩, -⟩, hacc, hthen, hworld⟩ := hw
    have hacc' : w.accepted = acc ++ own ++ [a] := by
      rw [hworld, World.accept, hacc, ← hthen]
    have hown : ∀ a' ∈ own ++ [a], ∀ n ∈ a'.cmd.nodes, n.hostVirtAddr.buf.purpose = .arguments := by
      intro a' ha' n hn
      rcases List.mem_append.1 ha' with ha' | ha'
      · exact hpurpose.2 a' ha' n hn
      · rw [List.mem_singleton.1 ha', ha.nodes_eq] at hn
        exact absurd hn List.not_mem_nil
    have hshelf := hlaunching.rests hidle hdistinct hsame hhosts
      (fun b hb => by rw [hworld]; exact hmapped b hb) hown
    rw [← List.append_assoc] at hshelf
    refine ⟨hshelf.mono fun hbase => ⟨hbase.extra, fun h hh => ?_, hbase.racked, hbase.slotted⟩, hacc'⟩
    rcases List.mem_cons.1 hh with rfl | hh
    · exact ⟨linked_of_pends (pends_launch htag hdma) hnodup hacc',
        hacc' ▸ chunked_launch hargs.oneChunk hdma⟩
    · exact hbase.follows h hh
  · obtain ⟨o, host, fr₁, own, forgotten, hfailed, hs⟩ := hs
    have hfailed := hfailed.of_without
    have hpurpose := hfailed.purpose hidle
    refine ⟨o, host, fr₁, _, own, forgotten, hfailed, rfl, ?_, ?_⟩
    · have hsame : fr.Same { fr₁ with pending := [], cut := forgotten ++ fr.cut } :=
        ⟨hfailed.same.1, hfailed.same.2, hfailed.same.3⟩
      exact hidle.launch hsame hfailed.hostsFrom hpurpose.1 rfl
    · refine hs.mono fun w hw => ⟨?_, hw.2⟩
      exact hw.1.1.rests hidle hdistinct ⟨hfailed.same.1, hfailed.same.2, hfailed.same.3⟩
        hfailed.hostsFrom hw.1.2 hpurpose.2

/-! ## Waiting and resetting -/

theorem owed_eraseIdx {k : ℕ} {handle : Handle} (h : handles[k]? = some handle) :
    (owed handles).Perm (handle.tags ++ owed (handles.eraseIdx k)) := by
  obtain ⟨hlt, rfl⟩ := List.getElem?_eq_some_iff.1 h
  exact (List.getElem_cons_eraseIdx_perm hlt).symm.flatMap_right Handle.tags

theorem waitLaunch_rests {E : Env} {X : World → Prop} (hX : Stable E X) (hidle : Idle fr)
    {k : ℕ} {handle : Handle} (hk : handles[k]? = some handle) :
    Triple (Rests clean X acc fr handles pinned) (waitLaunch handle.launch)
      (Ends (fun _ => Rests clean (fun w => X w ∧
          w.CompletedFrom handle.first (handle.first + handle.launch.argsDma.length) ∧
          w.Completed (handle.first + handle.launch.argsDma.length)) acc fr (handles.eraseIdx k) pinned)
        fun _ s => ∃ forgotten, Idle { fr with cut := forgotten ++ fr.cut } ∧
          Rests clean X acc { fr with cut := forgotten ++ fr.cut } (handles.eraseIdx k) pinned s) := by
  let P : World → Prop := Shelf clean (Base clean X acc fr handles pinned) acc fr
  have hP : Patient P := (stable_shelf (stable_base hX)).patient
  have hmem : handle ∈ handles := List.mem_of_getElem? hk
  have hsub : handles.eraseIdx k ⊆ handles := (List.eraseIdx_sublist ..).subset
  refine (waitLaunch_spec acc (owed (handles.eraseIdx k)) hP hidle.pending
    (fun w hw => (hw.base.follows handle hmem).1)
    fun w hw => (hw.base.follows handle hmem).2).conseq (fun s hs => ?_) (fun _ s hs => ?_)
    (fun e s hs => ?_) fun _ h => h
  · refine Ready.perm hs ?_
    have hperm := owed_eraseIdx hk
    rw [Handle.tags, List.append_assoc, List.singleton_append] at hperm
    exact (hperm.append_left _).append_left _
  · exact Tidy.mono hs fun w hw => ⟨hw.1.1.mono fun hbase => ⟨⟨hbase.extra, hw.2⟩,
      fun h hh => hbase.follows h (hsub hh), hbase.racked, hbase.slotted⟩, hw.1.2⟩
  · obtain ⟨forgotten, hs⟩ := hs
    refine ⟨forgotten, ⟨⟨hidle.stocked.buffers, hidle.stocked.positive, hidle.stocked.apart,
      hidle.stocked.capacity⟩, hidle.pending, hidle.arguments⟩, Tidy.mono hs fun w hw => ⟨?_, hw.2⟩⟩
    obtain ⟨hw, -⟩ := hw
    exact ⟨⟨hw.base.extra, fun h hh => hw.base.follows h (hsub hh),
      hw.base.racked, hw.base.slotted⟩, hw.known, hw.mapped, hw.gone, hw.released, hw.discarded⟩

theorem resetShires_rests {E : Env} {X : World → Prop} {shireMask : ℕ} (hX : Stable E X)
    (hidle : Idle fr) (hdistinct : Distinct pinned) (hE : ∀ a, IsReset shireMask a → E.accepts a) :
    Triple (Rests clean X acc fr handles pinned) (resetShires shireMask)
      (Ends (fun _ s => ∃ a, IsReset shireMask a ∧ Rests clean X (acc ++ [a]) fr handles pinned s)
        fun _ s => ∃ own, (∀ a ∈ own, IsReset shireMask a) ∧
          Rests clean X (acc ++ own) fr handles pinned s) := by
  have hshelf : ∀ own s, (∀ a ∈ own, IsReset shireMask a) →
      Tidy (fun w => Shelf clean (Base clean X acc fr handles pinned) acc fr w ∧ w.accepted = acc ++ own) fr
        (owed handles) s → Rests clean X (acc ++ own) fr handles pinned s := by
    refine fun own s hown hs => Tidy.mono hs fun w hw => ⟨?_, hw.2⟩
    have hnodes : ∀ a ∈ own, ∀ n ∈ a.cmd.nodes, False := fun a ha n hn => by
      rw [(hown a ha).nodes_eq] at hn
      exact List.not_mem_nil hn
    exact (hw.1.foreign _ hidle rfl rfl fun a ha n hn => (hnodes a ha n hn).elim).mono
      fun hbase => hbase.append _ hdistinct rfl fun a ha n hn => (hnodes a ha n hn).elim
  refine (resetShires_spec (E := E.without (owed handles)) (stable_shelf (stable_base hX))
    fun a ha hfresh => ⟨hE a ha, hfresh⟩).conseq (fun _ h => h) (fun _ s hs => ?_) (fun e s hs => ?_)
    fun _ h => h
  · obtain ⟨a, ha, hs⟩ := hs
    exact ⟨a, ha, hshelf [a] s (by simpa using ha) hs⟩
  · obtain ⟨own, hown, hs⟩ := hs
    exact ⟨own, hown, hshelf own s hown hs⟩

end EtSoc

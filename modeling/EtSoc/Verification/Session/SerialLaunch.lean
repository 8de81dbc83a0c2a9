import EtSoc.Verification.Session.Serial

/-! # Launches on a serial queue

The buffer of a slot is filled while its region may still be written by an earlier command;
after the launch the slot belongs to the launch, which comes last. -/

namespace EtSoc

open Function Program

variable {machine : Machine} {m0 mem : Memory} {acc own : List Accepted} {fr fr' : Frame}
  {handles : List Handle} {pinned : List DmaHostBuffer} {kernel : LoadedKernel}
  {opts : LaunchOptions} {slot : ArgsSlot} {len i N : ℕ} {a : Accepted}

/-! ## Slots -/

theorem Rests.mono_accepted {X X' : World → Prop} {s : Sys} (h : Rests True X acc fr handles pinned s)
    (hX : ∀ w, w.accepted = acc → X w → X' w) : Rests True X' acc fr handles pinned s :=
  Ready.mono h fun w hw => ⟨hw.1.mono fun hbase => hbase.mono (hX w hw.2), hw.2⟩

/-- Two slots that are equal have no buffer, unless they are the same one. -/
theorem SlotsApart.host_none {slots : List ArgsSlot} {j : ℕ} (h : SlotsApart slots)
    (hi : slots[i]? = some slot) (hj : slots[j]? = some slot) (hne : i ≠ j) :
    slot.host = none := by
  by_contra hsome
  obtain ⟨host, hhost⟩ := Option.ne_none_iff_exists'.1 hsome
  exact h.get hi hj hne hhost hhost rfl

theorem Chosen.slotsApart (h : Chosen fr len fr' i slot) (hapart : SlotsApart fr.argsSlots) :
    SlotsApart fr'.argsSlots := by
  cases h with
  | reused => exact hapart
  | fresh => exact List.pairwise_append.2 ⟨hapart, by simp, by simp⟩

/-- A slot that is not the chosen one was there before. -/
theorem Chosen.mem_of_ne {j : ℕ} {slot' : ArgsSlot} (h : Chosen fr len fr' i slot)
    (hj : fr'.argsSlots[j]? = some slot') (hne : j ≠ i) : slot' ∈ fr.argsSlots := by
  cases h with
  | reused => exact List.mem_of_getElem? hj
  | fresh =>
    have hlt : j < fr.argsSlots.length := by
      have := (List.getElem?_eq_some_iff.1 hj).1
      simp only [List.length_append, List.length_singleton] at this
      omega
    rw [List.getElem?_append_left hlt] at hj
    exact List.mem_of_getElem? hj

/-- The slots after a launch with arguments in slot `i`. -/
theorem launched_argsSlots (host : DmaHostBuffer) (tag : Tag) :
    ((fr.stage i (some host) own).launched (some i) tag).argsSlots =
      fr.argsSlots.modify i fun s => { s with host := some host, owner := some tag } := by
  simp only [Frame.launched, Frame.stage, Frame.setSlot, List.modify_modify_eq]
  rfl

/-- No other slot has the buffer that the chosen one gets. -/
theorem HostOf.ne_of_get {b : BufId} {j : ℕ} {slot' : ArgsSlot} {host : DmaHostBuffer}
    (h : HostOf N slot b) (hc : Chosen fr len fr' i slot) (hapart : SlotsApart fr.argsSlots)
    (hold : ∀ slot ∈ fr.argsSlots, ∀ host, slot.host = some host → host.id.serial < N)
    (hj : fr'.argsSlots[j]? = some slot') (hne : j ≠ i) (hhost : slot'.host = some host) :
    host.id ≠ b := by
  obtain ⟨host', hhost', rfl⟩ | ⟨-, -, hserial⟩ := h
  · exact (hc.slotsApart hapart).get hj hc.get hne hhost hhost'
  · rintro rfl
    have := hold slot' (hc.mem_of_ne hj hne) host hhost
    omega

/-- The buffers of the slots stay apart, and each slot is parked again. -/
theorem ArgsAt.parked {E : Option ArgsSlot → Env} {o : Option ArgsSlot}
    {host : Option DmaHostBuffer} {slot : Option ℕ} {ptr c : ℕ} {tag : Tag} {w : World}
    (h : ArgsAt E N fr opts o host slot ptr fr' own) (hapart : SlotsApart fr.argsSlots)
    (hold : ∀ slot ∈ fr.argsSlots, ∀ host, slot.host = some host → host.id.serial < N)
    (hlast : w.accepted[c]? = some a) (hlen : w.accepted.length = c + 1) (htag : a.cmd.tagId = tag)
    (hparked : w.Parked o fr.argsSlots) :
    SlotsApart (fr'.launched slot tag).argsSlots ∧
      w.Parked none (fr'.launched slot tag).argsSlots := by
  cases h with
  | bare => exact ⟨hapart, hparked⟩
  | @staged i slot fr₁ host own hc hs =>
    rw [launched_argsSlots]
    refine ⟨(hc.slotsApart hapart).modify (b := host.id) (fun s h hh => ?_)
      fun j slot' host' hne hj hhost => hs.1.ne_of_get hc hapart hold hj hne hhost, ?_⟩
    · obtain rfl : host = h := Option.some.inj hh
      rfl
    · intro slot' hslot' _ host' hhost' c' a' huse
      obtain ⟨j, hj⟩ := List.getElem?_of_mem hslot'
      rcases getElem?_modify_cases hj with ⟨hne, hj⟩ | ⟨-, s, -, rfl⟩
      · refine hparked slot' (hc.mem_of_ne hj hne) (fun s hs => ?_) host' hhost' c' a' huse
        rintro rfl
        obtain rfl : slot = slot' := Option.some.inj hs
        simp [(hc.slotsApart hapart).host_none hc.get hj hne.symm] at hhost'
      · have hlt := (List.getElem?_eq_some_iff.1 huse.1).1
        exact ⟨tag, c, a, rfl, by omega, hlast, htag⟩

/-! ## The commands -/

theorem IsLaunch.waits {ptr : ℕ} (h : IsLaunch kernel opts ptr a) (hsq : opts.sqIndex = 0)
    (hbarrier : opts.barrier = true) : a.Waits mainQueue := by
  refine ⟨?_, h.barrier_eq.trans hbarrier, by simp [h.isWrite_eq]⟩
  rw [h.queue_eq, hsq]
  rfl

theorem IsLaunch.parking_accepts {ptr : ℕ} (h : IsLaunch kernel opts ptr a)
    (hsq : opts.sqIndex = 0) (hbarrier : opts.barrier = true) (o : Option ArgsSlot) :
    (parking o fr.argsSlots).accepts a :=
  ⟨h.waits hsq hbarrier, by simp [h.nodes_eq]⟩

/-- The commands for the arguments use no buffer of another slot. -/
theorem Chosen.parking_accepts {b : BufId} {data : Memory} {dst total : ℕ}
    (hc : Chosen fr len fr' i slot) (hapart : SlotsApart fr.argsSlots)
    (hold : ∀ slot ∈ fr.argsSlots, ∀ host, slot.host = some host → host.id.serial < N)
    (hof : HostOf N slot b) (ha : Carries .write 0 (· = b) dst total a) (hpay : Payload data a) :
    (parking (some slot) fr.argsSlots).accepts a := by
  refine ⟨ha.waits fun _ => ⟨data, hpay⟩, fun n hn slot' hslot' hother host hhost => ?_⟩
  rw [(ha.within n hn).1]
  obtain ⟨j, hj⟩ := List.getElem?_of_mem hslot'
  cases hc with
  | reused hi hlen =>
    have hne : j ≠ i := by
      rintro rfl
      exact hother slot rfl (Option.some.inj (hj.symm.trans hi))
    exact (hof.ne_of_get (.reused hi hlen) hapart hold hj hne hhost).symm
  | fresh hregion =>
    have hlt := (List.getElem?_eq_some_iff.1 hj).1
    refine (hof.ne_of_get (.fresh hregion) hapart hold (j := j) ?_ hlt.ne hhost).symm
    rw [List.getElem?_append_left hlt]
    exact hj

theorem launchReady_lined (hex : machine.Exact) (hapart : SlotsApart fr.argsSlots)
    (hold : ∀ slot ∈ fr.argsSlots, ∀ host, slot.host = some host → host.id.serial < N)
    (hsq : opts.sqIndex = 0) (hbarrier : opts.barrier = true) :
    LaunchReady (fun o => parking o fr.argsSlots) (fun o => Lined machine m0 o fr.argsSlots)
      (Lined machine m0 none fr.argsSlots) N acc fr kernel opts where
  stable _ := stable_lined hex
  bare _ _ h _ := h
  ready fr' i slot hc w hs h _ hfree :=
    ⟨h.fill slot, fun _ hhost _ => h.quiescent hs (hc.old hhost) hfree hhost⟩
  args fr' i slot b a hc hof ha hpay := by
    rw [hsq] at ha
    exact hc.parking_accepts hapart hold hof ha (hpay trivial)
  launch a ha := ha.parking_accepts hsq hbarrier none
  launchArgs fr' i slot a _ ha := ha.parking_accepts hsq hbarrier (some slot)

/-- The memory after a launch, which writes its arguments first. -/
theorem ArgsAt.carryOutAll {o : Option ArgsSlot} {host : Option DmaHostBuffer} {slot : Option ℕ}
    {ptr : ℕ} {slots : List ArgsSlot}
    (h : ArgsAt (fun o => parking o slots) N fr opts o host slot ptr fr' own) :
    machine.carryOutAll mem own = stored mem ptr opts.args := by
  cases h with
  | bare hargs => rw [hargs, stored_nil, carryOutAll_nil]
  | staged hc hs =>
    rw [stored_eq]
    exact (hs.2.1.transfers rfl).carryOutAll_write fun a ha => hs.2.2 a ha trivial

/-! ## Handles -/

theorem InStep.perm {handles' : List Handle} {s : Sys}
    (h : InStep machine m0 mem handles pinned s) (hperm : handles.Perm handles') :
    InStep machine m0 mem handles' pinned s := by
  obtain ⟨acc, fr, hfr, hs⟩ := h
  exact ⟨acc, fr, hfr, hs.held (hperm.flatMap_right _) fun h' hh' =>
    ⟨h', hperm.mem_iff.2 hh', rfl, rfl⟩⟩

/-- The commands of the handles matter only. -/
theorem InStep.held {handles' : List Handle} {s : Sys}
    (h : InStep machine m0 mem handles pinned s)
    (hsame : handles'.map (fun h => (h.launch, h.cmd)) = handles.map fun h => (h.launch, h.cmd)) :
    InStep machine m0 mem handles' pinned s := by
  have hflat : ∀ l : List Handle, owed l =
      (l.map fun h => (h.launch, h.cmd)).flatMap fun p => p.1.argsDma ++ [p.1.tag] :=
    fun l => by
      rw [owed, List.flatMap_map]
      rfl
  obtain ⟨acc, fr, hfr, hs⟩ := h
  refine ⟨acc, fr, hfr, hs.held (.of_eq (by rw [hflat, hflat, hsame])) fun h' hh' => ?_⟩
  have hmem : (h'.launch, h'.cmd) ∈ handles.map fun h => (h.launch, h.cmd) :=
    hsame ▸ List.mem_map_of_mem hh'
  obtain ⟨h₀, hh₀, heq⟩ := List.mem_map.1 hmem
  exact ⟨h₀, hh₀, (Prod.mk.inj heq).1, (Prod.mk.inj heq).2⟩

/-! ## Launching and waiting -/

/-- The memory after a kernel has run with its arguments at `ptr`. -/
def launchedOn (machine : Machine) (mem : Memory) (kernel : LoadedKernel) (opts : LaunchOptions)
    (ptr : ℕ) : Memory :=
  machine.kernel ⟨kernel.codeStartAddress, ptr, opts.exceptionBuffer, opts.shireMask, opts.payload⟩
    (stored mem ptr opts.args)

theorem launchAsync_inStep (hex : machine.Exact) (hdistinct : Distinct pinned)
    (hsq : opts.sqIndex = 0) (hbarrier : opts.barrier = true) :
    Triple (InStep machine m0 mem handles pinned) (launchAsync kernel opts)
      (Ends (fun launch s => ∃ ptr a,
          s.world.accepted[s.world.accepted.length - 1]? = some a ∧ IsLaunch kernel opts ptr a ∧
          InStep machine m0 (launchedOn machine mem kernel opts ptr)
            (.new launch opts (s.world.accepted.length - 1) :: handles) pinned s)
        fun _ _ => True) := by
  refine inStep_spec fun acc fr hidle hapart hmem => .fix fun s₀ hs₀ => ?_
  have hold : ∀ slot ∈ fr.argsSlots, ∀ host, slot.host = some host →
      host.id.serial < s₀.world.nextBuf := hs₀.world.1.base.slotted
  have hpre : ∀ s, s = s₀ → Rests True (Lined machine m0 none fr.argsSlots) acc fr handles pinned s ∧
      s₀.world.nextBuf ≤ s.world.nextBuf := by
    rintro s rfl
    exact ⟨hs₀, Nat.le_refl _⟩
  refine (launchAsync_rests hidle hdistinct (launchReady_lined hex hapart hold hsq hbarrier)).conseq
    hpre (fun launch s hs => ?_) (fun _ _ _ => trivial) fun _ h => h
  · obtain ⟨o, host, slot, ptr, fr₁, fr', own, a, hargs, ha, hfr', hidle', htag, hs⟩ := hs
    have hacc : s.world.accepted = acc ++ own ++ [a] := hs.world.2
    have hparked : ∀ w : World, w.accepted = acc ++ own ++ [a] → w.Parked o fr.argsSlots →
        SlotsApart fr'.argsSlots ∧ w.Parked none fr'.argsSlots := by
      intro w hw hw'
      have hlast : w.accepted[(acc ++ own).length]? = some a := by simp [hw]
      rw [hfr']
      exact hargs.parked hapart hold hlast (by simp [hw]; omega) htag hw'
    have hlined := hs.world.1.base.extra
    have hcount : s.world.accepted.length - 1 = (acc ++ own).length := by simp [hacc]
    rw [← hcount] at hs
    refine ⟨ptr, a, by simp [hacc], ha, acc ++ own ++ [a], fr', ⟨hidle',
      (hparked _ hacc hlined.2).1, ?_⟩, hs.mono_accepted fun w hw hw' =>
        ⟨hw'.1, (hparked w hw hw'.2).2⟩⟩
    rw [carryOutAll_append, carryOutAll_append, hmem, hargs.carryOutAll, carryOutAll_cons,
      carryOutAll_nil, carryOut_of_launch ha.launch?_eq]
    rfl

theorem waitLaunch_inStep (hex : machine.Exact) {handle : Handle} :
    Triple (InStep machine m0 mem (handle :: handles) pinned) (waitLaunch handle.launch)
      (Ends (fun _ => InStep machine m0 mem handles pinned) fun _ _ => True) := by
  refine inStep_spec fun acc fr hidle hapart hmem => ?_
  refine ends_success (waitLaunch_rests (k := 0) (stable_lined hex) hidle rfl) fun _ s hs => ?_
  exact Rests.inStep hidle hapart (fun _ h => h) hmem (Rests.mono hs fun _ hw => hw.1)

end EtSoc

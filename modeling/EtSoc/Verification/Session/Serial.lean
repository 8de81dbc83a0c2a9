import EtSoc.Verification.Launch.Parked
import EtSoc.Verification.Session.Runs

/-! # Calls on a serial queue

What each call makes of the memory that results from carrying out, in turn, all commands
accepted so far. -/

namespace EtSoc

open Function Program

/-! ## Abstract memory -/

/-- `mem` with `bytes` stored from `addr` on. -/
def stored (mem : Memory) (addr : ℕ) (bytes : List UInt8) : Memory :=
  Spans.blit mem addr (fun i => bytes.getD i 0) 0 bytes.length

/-- The `len` bytes of `mem` from `addr` on. -/
def fetched (mem : Memory) (addr len : ℕ) : List UInt8 :=
  (List.range len).map fun k => mem (addr + k)

/-- `mem` with `value` in all of a region. -/
def filled (mem : Memory) (r : DeviceRegion) (value : UInt8) : Memory :=
  Spans.blit mem r.addr (fun _ => value) 0 r.size

/-- `mem` with a segment of an image in its place. -/
def segmentPlaced (image : List UInt8) (mem : Memory) (seg : Elf.LoadSegment) : Memory :=
  Spans.blit mem seg.vaddr (segmentData image seg) seg.vaddr seg.memSize

variable {machine : Machine} {m0 mem data : Memory} {a : Accepted} {own acc : List Accepted}
  {sq : UInt16} {bufs : BufId → Prop} {dst total : ℕ} {fr fr' : Frame} {handles : List Handle}
  {pinned : List DmaHostBuffer} {opts : DmaOptions} {slots : List ArgsSlot}

theorem blit_congr {target source source' : Memory} {src src' n : ℕ}
    (h : ∀ k < n, source (src + k) = source' (src' + k)) :
    Spans.blit target dst source src n = Spans.blit target dst source' src' n := by
  funext x
  by_cases hx : dst ≤ x ∧ x < dst + n
  · rw [Spans.blit_inside hx.1 hx.2, Spans.blit_inside hx.1 hx.2, h _ (by omega)]
  · rw [Spans.blit_outside hx, Spans.blit_outside hx]

theorem Transfers.carryOutAll_write (h : Transfers .write sq bufs dst total own)
    (hpay : ∀ a ∈ own, Payload data a) :
    machine.carryOutAll mem own = Spans.blit mem dst data dst total := by
  have hall : ∀ a ∈ own, a.cmd.launch? = none ∧ a.cmd.isWrite = true ∧ Payload data a :=
    fun a ha => ⟨(h.carries a ha).launch?_eq, (h.carries a ha).isWrite_eq, hpay a ha⟩
  funext x
  by_cases hx : dst ≤ x ∧ x < dst + total
  · obtain ⟨a, ha, n, hn, hlo, hhi⟩ := h.cover (x - dst) (by omega)
    rw [show dst + (x - dst) = x by omega] at hlo hhi
    rw [(carryOutAll_of_writes hall x).1 ⟨a, ha, n, hn, hlo, hhi⟩, Spans.blit_inside hx.1 hx.2,
      show dst + (x - dst) = x by omega]
  · rw [Spans.blit_outside hx]
    apply (carryOutAll_of_writes hall x).2
    rintro a ha ⟨n, hn, hlo, hhi⟩
    obtain ⟨-, hdst, hend⟩ := (h.carries a ha).within n hn
    change n.devicePhyAddr ≤ x at hlo
    change x < n.devicePhyAddr + n.size at hhi
    omega

theorem Transfers.carryOutAll_read (h : Transfers .read sq bufs dst total own) :
    machine.carryOutAll mem own = mem :=
  carryOutAll_of_reads fun a ha => ⟨(h.carries a ha).isWrite_eq, (h.carries a ha).launch?_eq⟩

/-- The bytes that a transfer was given, by device address. -/
theorem stored_eq (mem : Memory) (dst : ℕ) (bytes : List UInt8) :
    stored mem dst bytes = Spans.blit mem dst (fun x => bytes.getD (x - dst) 0) dst bytes.length :=
  blit_congr fun k _ => by rw [Nat.add_sub_cancel_left, Nat.zero_add]

theorem filled_eq (mem : Memory) (r : DeviceRegion) (value : UInt8) :
    filled mem r value = Spans.blit mem r.addr (fun _ => value) r.addr r.size :=
  blit_congr fun _ _ => rfl

theorem DeliversAll.carryOutAll {image : List UInt8} {segs : List Elf.LoadSegment}
    {E : Env} (hstrict : E.strict .staging) (h : DeliversAll E image segs own) :
    machine.carryOutAll mem own = segs.foldl (segmentPlaced image) mem := by
  induction h generalizing mem with
  | nil => rfl
  | cons hseg _ ih =>
    rw [carryOutAll_append, ih, hseg.transfers.carryOutAll_write (hseg.payload hstrict)]
    rfl

theorem eq_fetched {src len : ℕ} {out : List UInt8} (h : Shown mem (fun _ => True) src len out) :
    out = fetched mem src len := by
  apply List.ext_getElem?
  intro k
  by_cases hk : k < len
  · simp [fetched, h.2 k hk trivial, hk]
  · simp [fetched, hk, h.1]

/-! ## What a serial queue takes -/

theorem Carries.waits {direction : Direction} (h : Carries direction sq bufs dst total a)
    (hpay : direction = .write → ∃ data, Payload data a) : a.Waits (sq, false) := by
  obtain ⟨nodes, hlist⟩ := h.list
  refine ⟨hlist.queue_eq, hlist.barrier_eq, fun hwrite => hpay ?_⟩
  rw [h.isWrite_eq] at hwrite
  simpa using hwrite

/-- Commands on other buffers than those of slots do not disturb the slots. -/
theorem Idle.accepts (h : Idle fr) (hwaits : a.Waits mainQueue)
    (hnodes : ∀ n ∈ a.cmd.nodes, n.hostVirtAddr.buf.purpose ≠ .arguments) :
    (parking none fr.argsSlots).accepts a := by
  refine ⟨hwaits, fun n hn slot hslot _ host hhost heq => hnodes n hn ?_⟩
  rw [heq]
  exact h.arguments slot hslot host hhost

theorem Idle.accepts_sends (h : Idle fr) (hsq : sq = 0)
    (ha : Sends (parking none fr.argsSlots) .staging sq dst total data a) :
    (parking none fr.argsSlots).accepts a := by
  subst hsq
  apply h.accepts (ha.1.waits fun _ => ⟨data, ha.2 trivial⟩)
  intro n hn
  simp [ha.purpose_eq n hn]

theorem shows_lined (hex : machine.Exact) (acc : List Accepted) :
    Shows (parking none slots) (Lined machine m0 none slots) acc (machine.carryOutAll m0 acc)
      fun _ => True :=
  ⟨fun _ _ _ => trivial, fun _ _ _ hw => hw.1.machine_eq ▸ hex.executes,
    fun _ hs hw hacc hreads _ hc hrun x _ =>
      congrFun (hw.1.mem_of_reading hs hex hacc hreads hc hrun) x⟩

/-! ## Between two calls -/

/-- No call is running, and `mem` is what the commands so far make of the memory `m0`. -/
def InStep (machine : Machine) (m0 mem : Memory) (handles : List Handle)
    (pinned : List DmaHostBuffer) (s : Sys) : Prop :=
  ∃ acc fr, (Idle fr ∧ SlotsApart fr.argsSlots ∧ machine.carryOutAll m0 acc = mem) ∧
      Rests True (Lined machine m0 none fr.argsSlots) acc fr handles pinned s

/-- A call on a device that is in step. -/
theorem inStep_spec {α : Type} {m : M α} {Q : Post Sys Error α}
    (h : ∀ acc fr, Idle fr → SlotsApart fr.argsSlots →
      machine.carryOutAll m0 acc = mem →
      Triple (Rests True (Lined machine m0 none fr.argsSlots) acc fr handles pinned) m Q) :
    Triple (InStep machine m0 mem handles pinned) m Q :=
  .exists_pre fun acc => .exists_pre fun fr => .and_pre fun hfr =>
    h acc fr hfr.1 hfr.2.1 hfr.2.2

/-- Of a call that fails nothing is said. -/
theorem ends_success {α : Type} {m : M α} {P : Sys → Prop} {R R' : α → Sys → Prop}
    {F : Error → Sys → Prop} (h : Triple P m (Ends R F)) (hR : ∀ a s, R a s → R' a s) :
    Triple P m (Ends R' fun _ _ => True) :=
  h.conseq (fun _ h => h) hR (fun _ _ _ => trivial) fun _ h => h

/-- The commands of a call are done, and the slots are as before. -/
theorem inStep_of_finished {R : List Accepted → Prop} {mem' : Memory} {s : Sys}
    (hapart : SlotsApart fr.argsSlots) (hmem : machine.carryOutAll m0 acc = mem)
    (hR : ∀ own, R own → machine.carryOutAll mem own = mem')
    (h : Finished True R (Lined machine m0 none fr.argsSlots) acc fr handles pinned s) :
    InStep machine m0 mem' handles pinned s := by
  obtain ⟨own, fr', hown, ⟨staging, unmapped, forgotten, rfl⟩, hidle, hs⟩ := h
  refine ⟨acc ++ own, _, ⟨hidle, hapart, ?_⟩, Rests.mono hs fun _ hw => hw.1⟩
  rw [carryOutAll_append, hmem, hR own hown]

/-- A call that pushes no command. -/
theorem Rests.inStep {s : Sys} (hidle : Idle fr')
    (hapart : SlotsApart fr'.argsSlots) (hsub : ∀ slot ∈ fr'.argsSlots, slot ∈ fr.argsSlots)
    (hmem : machine.carryOutAll m0 acc = mem)
    (h : Rests True (Lined machine m0 none fr.argsSlots) acc fr' handles pinned s) :
    InStep machine m0 mem handles pinned s :=
  ⟨acc, fr', ⟨hidle, hapart, hmem⟩, Rests.mono h fun _ hw =>
    ⟨hw.1, fun slot hslot => hw.2 slot (hsub slot hslot)⟩⟩

theorem SlotsApart.of_eq {slots slots' : List ArgsSlot} (h : SlotsApart slots)
    (heq : slots' = slots) : SlotsApart slots' := heq ▸ h

variable (hex : machine.Exact) (hdistinct : Distinct pinned)
include hex hdistinct

/-! ## Transfers -/

theorem memcpyH2d_inStep {bytes : List UInt8} (hsq : opts.sqIndex = 0) :
    Triple (InStep machine m0 mem handles pinned) (memcpyH2dOpts bytes dst opts)
      (Ends (fun _ => InStep machine m0 (stored mem dst bytes) handles pinned)
        fun _ _ => True) := by
  refine inStep_spec fun acc fr hidle hapart hmem => ?_
  refine ends_success (memcpyH2d_rests acc handles opts (stable_lined hex) hidle hdistinct
    (fun _ => trivial) fun a ha => hidle.accepts_sends hsq ha) fun _ s hs => ?_
  refine inStep_of_finished hapart hmem (fun own hown => ?_) hs
  rw [hown.transfers.carryOutAll_write (hown.payload trivial), stored_eq]

theorem fillRegion_inStep {r : DeviceRegion} {value : UInt8} :
    Triple (InStep machine m0 mem handles pinned) (fillRegion r value)
      (Ends (fun _ => InStep machine m0 (filled mem r value) handles pinned)
        fun _ _ => True) := by
  refine inStep_spec fun acc fr hidle hapart hmem => ?_
  refine ends_success (fillRegion_rests (stable_lined hex) hidle hdistinct (fun _ => trivial)
    fun a ha => hidle.accepts_sends rfl ha) fun _ s hs => ?_
  refine inStep_of_finished hapart hmem (fun own hown => ?_) hs
  rw [hown.transfers.carryOutAll_write (hown.payload trivial), filled_eq]

theorem memcpyD2h_inStep {src len : ℕ} (hsq : opts.sqIndex = 0) :
    Triple (InStep machine m0 mem handles pinned) (memcpyD2hOpts src len opts)
      (Ends (fun out s => out = fetched mem src len ∧ InStep machine m0 mem handles pinned s)
        fun _ _ => True) := by
  refine inStep_spec fun acc fr hidle hapart hmem => ?_
  refine ends_success (memcpyD2h_rests (stable_lined hex) hidle hdistinct (fun _ => trivial)
    (shows_lined hex acc) fun a ha => ?_) fun out s hs => ?_
  · apply hidle.accepts
    · have := Carries.waits ha (by simp)
      rwa [hsq] at this
    · intro n hn
      simp [(ha.within n hn).1]
  · obtain ⟨own, fr', hown, hrest⟩ := hs
    refine ⟨?_, inStep_of_finished (R := fun own => Transfers .read opts.sqIndex
      (·.purpose = .staging) src len own) hapart hmem
      (fun own hown => hown.carryOutAll_read) ⟨own, fr', hown.1, hrest⟩⟩
    rw [← hmem]
    exact eq_fetched hown.2

theorem upload_inStep {elemSize n : ℕ} {bytes : List UInt8} :
    Triple (InStep machine m0 mem handles pinned) (upload elemSize n bytes)
      (Ends (fun r => InStep machine m0 (stored mem r.addr bytes) handles pinned)
        fun _ _ => True) := by
  refine .bind (R := fun _ => InStep machine m0 mem handles pinned) ?_ fun r => ?_
  · refine inStep_spec fun acc fr hidle hapart hmem => ?_
    refine ends_success allocArray_rests fun r s hs => ?_
    exact hs.2.inStep (hidle.alike hs.1.alike) hapart (fun _ h => h) hmem
  · exact .bind (memcpyH2d_inStep hex hdistinct rfl) fun _ => .pure fun _ h => h

theorem loadKernel_inStep {image : List UInt8} (hlen : image.length < 2 ^ 63) :
    Triple (InStep machine m0 mem handles pinned) (loadKernel image)
      (Ends (fun kernel s => ∃ elf, Elf.parse image = .ok elf ∧ kernel = ⟨elf.entry⟩ ∧
          InStep machine m0 (elf.segments.foldl (segmentPlaced image) mem) handles pinned s)
        fun _ _ => True) := by
  refine inStep_spec fun acc fr hidle hapart hmem => ?_
  refine ends_success (loadKernel_rests (stable_lined hex) hidle hdistinct (fun _ => trivial)
    (hlen.trans (by decide)) fun a ha => ?_) fun kernel s hs => ?_
  · obtain ⟨elf, -, -, seg, -, hsends⟩ := ha
    exact hidle.accepts_sends rfl hsends
  · obtain ⟨elf, own, fr', hparse, hentry, hown, hreserves, hidle', hs⟩ := hs
    refine ⟨elf, hparse, ?_, acc ++ own, fr', ⟨hidle',
      hapart.of_eq hreserves.argsSlots, ?_⟩, Rests.mono hs fun w hw => ?_⟩
    · cases kernel
      simpa using hentry
    · rw [carryOutAll_append, hmem, hown.carryOutAll trivial]
    · rw [hreserves.argsSlots]
      exact hw.1

/-! ## Pinned buffers -/

/-- The contents of a pinned buffer. -/
def PinnedBuffer.bytes (m : BufId → Memory) (buffer : PinnedBuffer) : List UInt8 :=
  match buffer.host with
  | some host => (List.range buffer.len).map (m host.id)
  | none => []

section
variable {buffer : PinnedBuffer} {host : DmaHostBuffer} {m : BufId → Memory}

omit hex hdistinct

theorem PinnedBuffer.bytes_of_some (hhost : buffer.host = some host) :
    buffer.bytes m = (List.range buffer.len).map (m host.id) := by
  simp [PinnedBuffer.bytes, hhost]

theorem PinnedBuffer.length_bytes (m m' : BufId → Memory) (buffer : PinnedBuffer) :
    (buffer.bytes m).length = (buffer.bytes m').length := by
  cases hhost : buffer.host <;> simp [PinnedBuffer.bytes, hhost]

/-- Nothing is transferred if there is no buffer, or an empty one. -/
theorem Skipped.bytes_eq {buffer' : PinnedBuffer} {result : Except Error Unit}
    (h : Skipped buffer buffer' result) (hok : result = .ok ()) : buffer.bytes m = [] := by
  obtain hnone | hzero := h.2 hok
  · simp [PinnedBuffer.bytes, hnone]
  · cases hhost : buffer.host <;> simp [PinnedBuffer.bytes, hzero, hhost]

theorem stored_nil : stored mem dst [] = mem := by
  funext x
  exact Spans.blit_outside (by simp)

theorem stored_bytes (hhost : buffer.host = some host) :
    stored mem dst (buffer.bytes m) =
      Spans.blit mem dst (fun x => m host.id (x - dst)) dst buffer.len := by
  rw [stored_eq, PinnedBuffer.bytes_of_some hhost]
  simp only [List.length_map, List.length_range]
  exact blit_congr fun k hk => by simp [hk]

/-- Pinned buffers are none of the slots. -/
theorem Idle.accepts_pinned {direction : Direction} (h : Idle fr) (hdistinct : Distinct pinned)
    (hin : host ∈ pinned) (hsq : sq = 0)
    (ha : Carries direction sq (· = host.id) dst total a)
    (hpay : direction = .write → ∃ data, Payload data a) :
    (parking none fr.argsSlots).accepts a := by
  subst hsq
  apply h.accepts (ha.waits hpay)
  intro n hn
  rw [(ha.within n hn).1, hdistinct.purpose host hin]
  simp

end

theorem memcpyH2dPinned_inStep {buffer : PinnedBuffer} {m : BufId → Memory}
    (hsq : opts.sqIndex = 0) (hmem : ∀ host, buffer.host = some host → host ∈ pinned) :
    Triple (fun s => InStep machine m0 mem handles pinned s ∧ s.world.host = m)
      (memcpyH2dPinnedOpts buffer dst opts)
      (Ends (fun r s => r.2 = .ok () → r.1 = buffer ∧
          InStep machine m0 (stored mem dst (buffer.bytes m)) handles pinned s)
        fun _ _ => False) := by
  refine .pre (P := fun s => ∃ acc fr, (Idle fr ∧ SlotsApart fr.argsSlots ∧
      machine.carryOutAll m0 acc = mem) ∧
        Rests True (Lined machine m0 none fr.argsSlots) acc fr handles pinned s ∧ s.world.host = m)
    (.exists_pre fun acc => .exists_pre fun fr => .and_pre fun ⟨hidle, hapart, hacc⟩ => ?_)
    fun s ⟨⟨acc, fr, hfr, hs⟩, hm⟩ => ⟨acc, fr, hfr, hs, hm⟩
  refine (memcpyH2dPinned_rests (stable_lined hex) hidle hdistinct hmem (fun _ => trivial)
    fun host a hhost ha hpay => hidle.accepts_pinned hdistinct (hmem host hhost) hsq ha
      fun _ => ⟨_, hpay trivial⟩).conseq (fun _ h => h) (fun r s hend hok => ?_)
    (fun _ _ h => h) fun _ h => h
  cases hend with
  | skipped hskip hs =>
    rw [hskip.bytes_eq hok, stored_nil]
    exact ⟨hskip.1, acc, fr, ⟨hidle, hapart, hacc⟩, hs⟩
  | @done host own s hhost hown hs =>
    have hsent := hs.world.1.base.extra.1.2
    refine ⟨rfl, acc ++ own, fr, ⟨hidle, hapart, ?_⟩, Rests.mono hs fun _ hw => hw.1.1⟩
    rw [carryOutAll_append, hacc, stored_bytes hhost]
    exact (hsent.1.transfers rfl).carryOutAll_write (hsent.2 trivial)
  | failed => cases hok

theorem memcpyD2hPinned_inStep {buffer : PinnedBuffer} {src : ℕ} (hsq : opts.sqIndex = 0)
    (hmem : ∀ host, buffer.host = some host → host ∈ pinned) :
    Triple (InStep machine m0 mem handles pinned) (memcpyD2hPinnedOpts src buffer opts)
      (Ends (fun r s => r.2 = .ok () → r.1 = buffer ∧
          buffer.bytes s.world.host = fetched mem src (buffer.bytes s.world.host).length ∧
          InStep machine m0 mem handles pinned s) fun _ _ => False) := by
  refine inStep_spec fun acc fr hidle hapart hacc => ?_
  refine (memcpyD2hPinned_rests (stable_lined hex) hidle hdistinct hmem (fun _ => trivial)
    (shows_lined hex acc) fun a ⟨host, hhost, ha⟩ => hidle.accepts_pinned hdistinct
      (hmem host hhost) hsq ha (by simp)).conseq (fun _ h => h) (fun r s hend hok => ?_)
    (fun _ _ h => h) fun _ h => h
  cases hend with
  | skipped hskip hs =>
    rw [hskip.bytes_eq hok]
    exact ⟨hskip.1, rfl, acc, fr, ⟨hidle, hapart, hacc⟩, hs⟩
  | @done host own s hhost hown hs =>
    have hfetched := hs.world.1.base.extra.1.2
    refine ⟨rfl, ?_, acc ++ own, fr, ⟨hidle, hapart, ?_⟩, Rests.mono hs fun _ hw => hw.1.1⟩
    · rw [PinnedBuffer.bytes_of_some hhost, List.length_map, List.length_range, ← hacc]
      apply List.map_congr_left
      intro k hk
      exact hfetched.2 k (List.mem_range.1 hk) trivial
    · rw [carryOutAll_append, hacc]
      exact (hfetched.1.transfers rfl).carryOutAll_read
  | failed => cases hok

/-! ## Calls without commands -/

omit hex hdistinct in
theorem allotted_inStep {α : Type} {m : M α}
    (h : ∀ X acc fr, Triple (Rests True X acc fr handles pinned) m
      (Ends (fun _ => Allotted True X acc fr handles pinned)
        fun _ => Allotted True X acc fr handles pinned)) :
    Triple (InStep machine m0 mem handles pinned) m
      (Ends (fun _ => InStep machine m0 mem handles pinned) fun _ _ => True) := by
  refine inStep_spec fun acc fr hidle hapart hmem => ?_
  refine ends_success (h _ acc fr) fun _ s hs => ?_
  obtain ⟨fr', hallots, hs⟩ := hs
  have halike := hallots.alike
  have hslots : fr'.argsSlots = fr.argsSlots := by cases hallots <;> rfl
  exact hs.inStep (hidle.alike halike) (hapart.of_eq hslots)
    halike.argsSlots hmem

omit hex hdistinct in
theorem allocMark_inStep :
    Triple (InStep machine m0 mem handles pinned) allocMark
      (Ends (fun _ => InStep machine m0 mem handles pinned) fun _ _ => True) := by
  refine inStep_spec fun acc fr hidle hapart hmem => ?_
  refine ends_success (allocMark_rests (F := fun _ _ => True)) fun _ s hs => ?_
  have halike : fr.Alike { fr with heap := .marked :: fr.heap } [] :=
    ⟨rfl, rfl, rfl, rfl, fun _ h => h, rfl, by simp⟩
  exact hs.2.inStep (hidle.alike halike) hapart halike.argsSlots hmem

omit hex hdistinct in
theorem resetTo_inStep {k : ℕ} {mark : AllocMark} :
    Triple (InStep machine m0 mem handles pinned) (resetTo k mark)
      (Ends (fun _ => InStep machine m0 mem handles pinned) fun _ _ => True) := by
  refine inStep_spec fun acc fr hidle hapart hmem => ?_
  refine ends_success (resetTo_rests (F := fun _ _ => True) hidle) fun _ s hs => ?_
  obtain ⟨fr', hresets, hidle', hs⟩ := hs
  refine hs.inStep hidle' ?_ ?_ hmem
  · rw [hresets.argsSlots]
    exact hapart.filter _
  · rw [hresets.argsSlots]
    exact fun slot hslot => (List.mem_filter.1 hslot).1

omit hex hdistinct in
theorem setStagingCapacity_inStep {bytes : ℕ} :
    Triple (InStep machine m0 mem handles pinned) (setStagingCapacity bytes)
      (Ends (fun _ => InStep machine m0 mem handles pinned) fun _ _ => True) := by
  refine inStep_spec fun acc fr hidle hapart hmem => ?_
  refine ends_success (setStagingCapacity_rests (F := fun _ _ => True) hidle) fun _ s hs => ?_
  obtain ⟨fr', hidle', hslots, -, hs⟩ := hs
  exact hs.inStep hidle' (hapart.of_eq hslots) (by simp [hslots]) hmem

omit hex hdistinct in
theorem setDefaultTimeout_inStep {timeout : Duration} :
    Triple (InStep machine m0 mem handles pinned)
      (modifyDev fun d => { d with defaultTimeout := timeout })
      (Ends (fun _ => InStep machine m0 mem handles pinned) fun _ _ => True) := by
  refine inStep_spec fun acc fr hidle hapart hmem => ?_
  refine ends_success (setDefaultTimeout_rests (F := fun _ _ => True)) fun _ s hs => ?_
  have halike : fr.Alike { fr with defaultTimeout := timeout } [] :=
    ⟨rfl, rfl, rfl, rfl, fun _ h => h, rfl, by simp⟩
  exact hs.inStep (hidle.alike halike) hapart halike.argsSlots hmem

omit hdistinct in
theorem tick_inStep :
    Triple (InStep machine m0 mem handles pinned) tick
      (Ends (fun _ => InStep machine m0 mem handles pinned) fun _ _ => True) := by
  refine inStep_spec fun acc fr hidle hapart hmem => ?_
  refine ends_success (tick_rests (F := fun _ _ => True) (stable_lined hex)) fun _ s hs => ?_
  exact hs.inStep hidle hapart (fun _ h => h) hmem

theorem allocPinned_inStep {len : ℕ} :
    Triple (InStep machine m0 mem handles pinned) (allocPinned len)
      (Ends (fun buffer s => ∃ host, buffer.host = some host ∧ Distinct (pinned ++ [host]) ∧
          InStep machine m0 mem handles (pinned ++ [host]) s) fun _ _ => True) := by
  refine inStep_spec fun acc fr hidle hapart hmem => ?_
  refine ends_success (allocPinned_rests (stable_lined hex) hdistinct) fun _ s hs => ?_
  obtain ⟨host, hhost, hdistinct', hs⟩ := hs
  exact ⟨host, hhost, hdistinct', hs.inStep hidle hapart (fun _ h => h) hmem⟩

theorem writePinned_inStep {buffer : PinnedBuffer} {bytes : List UInt8}
    (hin : ∀ host, buffer.host = some host → host ∈ pinned) :
    Triple (InStep machine m0 mem handles pinned) (Session.writePinned buffer bytes)
      (Ends (fun _ => InStep machine m0 mem handles pinned) fun _ _ => True) := by
  refine inStep_spec fun acc fr hidle hapart hmem => ?_
  refine ends_success (writePinned_rests (F := fun _ _ => True) (stable_lined hex) hdistinct
    (fun _ => trivial) hin) fun _ s hs => ?_
  exact hs.inStep hidle hapart (fun _ h => h) hmem

omit hex in
theorem dropPinned_inStep {pinned' dropped : List DmaHostBuffer} (hsub : pinned' ⊆ pinned)
    (hdropped : dropped ⊆ pinned) :
    Triple (InStep machine m0 mem handles pinned) (unmap dropped)
      (Ends (fun _ => InStep machine m0 mem handles pinned') fun _ _ => True) := by
  refine inStep_spec fun acc fr hidle hapart hmem => ?_
  refine ends_success (dropPinned_rests (F := fun _ _ => True) hidle hdistinct hsub hdropped)
    fun _ s hs => ?_
  obtain ⟨fr', hidle', hslots, -, hs⟩ := hs
  exact hs.inStep hidle' (hapart.of_eq hslots) (by simp [hslots]) hmem

end EtSoc

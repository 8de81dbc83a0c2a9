import EtSoc.Verification.Session.SerialLaunch
import EtSoc.Verification.Session.SlotCount

/-! # Sequential execution

What the calls on the main queue would do if each were carried out at once, and that a run in
which they overlap cannot be told from it. -/

namespace EtSoc

open Function Program

/-! ## Calls carried out at once -/

/-- Whether a call leaves the device memory alone and returns none of it. -/
def Call.quiet : Call → Bool
  | .alloc _ | .allocArray .. | .allocPadded .. | .allocTensorMatrix .. | .allocMark | .resetTo _
  | .waitLaunch _ | .dropLaunch _ | .allocPinned _ | .writePinned .. | .dropPinned _
  | .setStagingCapacity _ | .setDefaultLaunchTimeout _ | .idle => true
  | _ => false

/-- All commands of the call go to the main queue and wait there for those before them. -/
def Call.Main : Call → Prop
  | .launchAsync _ opts => opts.sqIndex = 0 ∧ opts.barrier = true
  | .memcpyH2d _ _ opts | .memcpyD2h _ _ opts | .memcpyH2dPinned _ _ opts
  | .memcpyD2hPinned _ _ opts => opts.sqIndex = 0
  | .resetShires _ => False
  | _ => True

/-- The call took the session `s` to `s'` and returned `reply`; at once, it would have made the
last memory of `mem`. A launch writes its arguments before the kernel runs, and a pinned buffer
is sent as it is when the call is made. -/
inductive Atomically (machine : Machine) (s s' : Session) (mem : Memory) :
    Call → Reply → Memory → Prop where
  | quiet {call reply} (h : call.quiet = true) : Atomically machine s s' mem call reply mem
  | upload {elemSize n data} {r : DeviceRegion} :
      Atomically machine s s' mem (.upload elemSize n data) (.region r) (stored mem r.addr data)
  | memcpyH2d {src dst opts} :
      Atomically machine s s' mem (.memcpyH2d src dst opts) .done (stored mem dst src)
  | memcpyD2h {src len opts} :
      Atomically machine s s' mem (.memcpyD2h src len opts) (.bytes (fetched mem src len)) mem
  | fill {r value} : Atomically machine s s' mem (.fill r value) .done (filled mem r value)
  | loadKernel {image slice elf} (h : Elf.parse image = .ok elf) :
      Atomically machine s s' mem (.loadKernel image slice) (.kernel ⟨elf.entry⟩)
        (elf.segments.foldl (segmentPlaced image) mem)
  | launchAsync {kernel opts c ptr a} (ha : s'.sys.world.accepted[c]? = some a)
      (h : IsLaunch kernel opts ptr a) :
      Atomically machine s s' mem (.launchAsync kernel opts) (.launched c)
        (launchedOn machine mem kernel opts ptr)
  | memcpyH2dPinned {k dst opts buffer} (h : s.pinned[k]? = some buffer) :
      Atomically machine s s' mem (.memcpyH2dPinned k dst opts) .done
        (stored mem dst (s.pinnedBytes buffer))
  | memcpyD2hPinned {src k opts buffer} (h : s.pinned[k]? = some buffer) :
      Atomically machine s s' mem (.memcpyD2hPinned src k opts)
        (.bytes (fetched mem src (s.pinnedBytes buffer).length)) mem

/-- As `Atomically`, for whatever the call returned; one that names nothing the client has does
nothing. -/
inductive Serves (machine : Machine) (s s' : Session) (call : Call) (mem : Memory) :
    Memory → Prop where
  | ignored (h : s' = s) : Serves machine s s' call mem mem
  | made {reply mem'} (hreply : s'.replies = (call, reply) :: s.replies)
      (h : Atomically machine s s' mem call reply mem') : Serves machine s s' call mem mem'

/-- The calls, each carried out at once and in turn, take the first memory to the second. -/
inductive Sequential (machine : Machine) : Session → List Call → Memory → Memory → Prop where
  | nil {s mem} : Sequential machine s [] mem mem
  | cons {s call calls mem mem' mem''} (h : Serves machine s (s.step call) call mem mem')
      (hrest : Sequential machine (s.step call) calls mem' mem'') :
      Sequential machine s (call :: calls) mem mem''

namespace Session

/-! ## Calls that succeed -/

/-- No call has failed, blocked or panicked. -/
def Clean (s : Session) : Prop := s.stopped = none ∧ ∀ p ∈ s.replies, p.2.isFailed = false

instance (s : Session) : Decidable s.Clean := inferInstanceAs (Decidable (_ ∧ _))

section
variable {α : Type} {m : M α} {keep : Session → α → Session × Reply} {call : Call} {s : Session}

theorem Clean.of_step (h : (s.step call).Clean) : s.Clean := by
  refine ⟨?_, fun p hp => h.2 p ((replies_suffix_step s call).subset hp)⟩
  by_contra hstop
  rw [step_of_stopped hstop] at h
  exact hstop h.1

theorem Clean.of_run {calls : List Call} (h : (s.run calls).Clean) : s.Clean := by
  induction calls generalizing s with
  | nil => exact h
  | cons call calls ih => exact (ih h).of_step

/-- A call that did not fail returned. -/
theorem Clean.perform {R : α → Sys → Prop} {F : Error → Sys → Prop}
    (h : (s.perform call m keep).Clean) (hm : Triple (· = s.sys) m (Ends R F)) :
    ∃ a sys, R a sys ∧ s.perform call m keep =
      { (keep { s with sys := sys } a).1 with
        replies := (call, (keep { s with sys := sys } a).2) ::
          (keep { s with sys := sys } a).1.replies } := by
  have hm := hm s.sys rfl
  unfold Session.perform at h ⊢
  split <;> rename_i heq <;> simp only [heq] at h hm
  · exact ⟨_, _, hm, rfl⟩
  · exact absurd (h.2 _ List.mem_cons_self) (by simp [Reply.isFailed])
  · simp [Clean] at h

end

/-! ## One call -/

/-- No call is running, and the calls so far, made in turn, come to `mem`. -/
structure InTurn (machine : Machine) (m0 mem : Memory) (s : Session) : Prop where
  distinct : Distinct s.hosts
  inStep : InStep machine m0 mem s.unwaited s.hosts s.sys

/-- The call that took `s` to `s'` has kept its turn. -/
def Served (machine : Machine) (m0 mem : Memory) (s : Session) (call : Call) (s' : Session) :
    Prop :=
  ∃ mem', Serves machine s s' call mem mem' ∧ InTurn machine m0 mem' s'

variable {machine : Machine} {m0 mem : Memory} {s : Session} {call : Call}

theorem InTurn.ignored (h : InTurn machine m0 mem s) : Served machine m0 mem s call s :=
  ⟨mem, .ignored rfl, h⟩

/-- What a call that did not fail left is judged by what it returned. -/
theorem Served.perform {α : Type} {m : M α} {keep : Session → α → Session × Reply} {t : Session}
    {R : α → Sys → Prop} {F : Error → Sys → Prop} (hclean : (t.perform call m keep).Clean)
    (hm : Triple (· = t.sys) m (Ends R F))
    (hok : ∀ a sys, R a sys → Served machine m0 mem s call
      { (keep { t with sys := sys } a).1 with
        replies := (call, (keep { t with sys := sys } a).2) ::
          (keep { t with sys := sys } a).1.replies }) :
    Served machine m0 mem s call (t.perform call m keep) := by
  obtain ⟨a, sys, hsys, heq⟩ := hclean.perform hm
  rw [heq]
  exact hok a sys hsys

/-- A call that leaves the client with what it had. -/
theorem InTurn.plain {α : Type} {m : M α} {reply : α → Reply} {R : α → Sys → Prop}
    {F : Error → Sys → Prop} (h : InTurn machine m0 mem s)
    (hclean : (s.perform call m fun s a => (s, reply a)).Clean)
    (hm : Triple (InStep machine m0 mem s.unwaited s.hosts) m (Ends R F))
    (hR : ∀ a sys, R a sys → ∃ mem', (∀ s', Atomically machine s s' mem call (reply a) mem') ∧
      InStep machine m0 mem' s.unwaited s.hosts sys) :
    Served machine m0 mem s call (s.perform call m fun s a => (s, reply a)) := by
  refine .perform hclean (hm.pre fun _ heq => heq ▸ h.inStep) fun a sys hsys => ?_
  obtain ⟨mem', hatomically, hs⟩ := hR a sys hsys
  exact ⟨mem', .made rfl (hatomically _), h.distinct, hs⟩

/-- A quiet one. -/
theorem InTurn.quiet {α : Type} {m : M α} {reply : α → Reply} {F : Error → Sys → Prop}
    (h : InTurn machine m0 mem s) (hquiet : call.quiet = true)
    (hclean : (s.perform call m fun s a => (s, reply a)).Clean)
    (hm : Triple (InStep machine m0 mem s.unwaited s.hosts) m
      (Ends (fun _ => InStep machine m0 mem s.unwaited s.hosts) F)) :
    Served machine m0 mem s call (s.perform call m fun s a => (s, reply a)) :=
  h.plain hclean hm fun _ _ hs => ⟨mem, fun _ => .quiet hquiet, hs⟩

theorem pinnedBytes_eq (s : Session) (buffer : PinnedBuffer) :
    s.pinnedBytes buffer = buffer.bytes s.sys.world.host := rfl

theorem set_self {k : ℕ} {buffer : PinnedBuffer} (hk : s.pinned[k]? = some buffer) :
    s.pinned.set k buffer = s.pinned := by
  obtain ⟨hlt, rfl⟩ := List.getElem?_eq_some_iff.1 hk
  exact List.set_getElem_self hlt

/-- A transfer of a pinned buffer that succeeds leaves it with the client. -/
theorem InTurn.transferPinned {k : ℕ} {m : PinnedBuffer → M (PinnedBuffer × Except Error Unit)}
    {reply : Session → PinnedBuffer → Reply} {R : PinnedBuffer → Sys → Prop}
    {F : Error → Sys → Prop} (h : InTurn machine m0 mem s)
    (hclean : (s.transferPinned call k m reply).Clean)
    (hm : ∀ buffer, s.pinned[k]? = some buffer →
      Triple (fun sys => InStep machine m0 mem s.unwaited s.hosts sys ∧
          sys.world.host = s.sys.world.host) (m buffer)
        (Ends (fun r sys => r.2 = .ok () → r.1 = buffer ∧ R buffer sys) F))
    (hR : ∀ buffer sys, s.pinned[k]? = some buffer → R buffer sys → ∃ mem',
      (∀ t s', t.sys = sys → Atomically machine s s' mem call (reply t buffer) mem') ∧
        InStep machine m0 mem' s.unwaited s.hosts sys) :
    Served machine m0 mem s call (s.transferPinned call k m reply) := by
  unfold Session.transferPinned at hclean ⊢
  split
  · rename_i buffer hk
    simp only [hk] at hclean
    have hpre : ∀ sys, sys = s.sys → InStep machine m0 mem s.unwaited s.hosts sys ∧
        sys.world.host = s.sys.world.host := by
      rintro sys rfl
      exact ⟨h.inStep, rfl⟩
    obtain ⟨⟨buffer', result⟩, sys, hr, heq⟩ := hclean.perform ((hm buffer hk).pre hpre)
    rw [heq] at hclean ⊢
    cases result with
    | error e => exact absurd (hclean.2 _ List.mem_cons_self) (by simp [Reply.isFailed])
    | ok u =>
      obtain ⟨rfl, hend⟩ := hr rfl
      obtain ⟨mem', hatomically, hs⟩ := hR _ sys hk hend
      simp only [set_self hk]
      exact ⟨mem', .made rfl (hatomically _ _ rfl), h.distinct, hs⟩
  · exact h.ignored

/-- A handle that is dropped counts as one not waited for. -/
theorem unwaited_dropped {s' : Session} {k : ℕ} {handle : Handle}
    (h : s.take k .dropped = some (handle, s')) :
    s'.unwaited.map (fun h => (h.launch, h.cmd)) = s.unwaited.map fun h => (h.launch, h.cmd) := by
  obtain ⟨hk, hheld, rfl⟩ := take_eq_some h
  obtain ⟨hlt, rfl⟩ := List.getElem?_eq_some_iff.1 hk
  have hsplit : s.handles = s.handles.take k ++ s.handles[k] :: s.handles.drop (k + 1) := by simp
  simp only [unwaited]
  rw [List.set_eq_take_append_cons_drop, if_pos hlt]
  conv_rhs => rw [hsplit]
  simp only [List.filter_append, List.map_append]
  rw [List.filter_cons_of_pos (by simp), List.filter_cons_of_pos (by simp [hheld])]
  rfl

theorem InTurn.dropLaunch (h : InTurn machine m0 mem s) {s' : Session} {k : ℕ} {handle : Handle}
    (htake : s.take k .dropped = some (handle, s')) :
    Served machine m0 mem s (.dropLaunch k)
      { s' with replies := (.dropLaunch k, .done) :: s'.replies } := by
  have hs := h.inStep.held (unwaited_dropped htake)
  obtain ⟨-, -, rfl⟩ := take_eq_some htake
  exact ⟨mem, .made rfl (.quiet rfl), h.distinct, hs⟩

theorem InTurn.waitLaunch (hex : machine.Exact) (h : InTurn machine m0 mem s) {s' : Session} {k : ℕ}
    {handle : Handle} (htake : s.take k .waited = some (handle, s'))
    (hclean : (s'.perform (.waitLaunch k) (EtSoc.waitLaunch handle.launch)
      fun s r => (s, .finished r)).Clean) :
    Served machine m0 mem s (.waitLaunch k)
      (s'.perform (.waitLaunch k) (EtSoc.waitLaunch handle.launch) fun s r => (s, .finished r)) := by
  have hs := h.inStep.perm (unwaited_waited htake)
  have hwait : Triple (· = s.sys) (EtSoc.waitLaunch handle.launch)
      (Ends (fun _ => InStep machine m0 mem s'.unwaited s.hosts) fun _ _ => True) :=
    (waitLaunch_inStep hex).pre fun _ heq => heq ▸ hs
  obtain ⟨-, -, rfl⟩ := take_eq_some htake
  exact .perform hclean hwait fun r sys hsys => ⟨mem, .made rfl (.quiet rfl), h.distinct, hsys⟩

/-! ## Runs -/

theorem InTurn.step (hex : machine.Exact) (h : InTurn machine m0 mem s) (hmain : call.Main)
    (hclean : (s.step call).Clean) : Served machine m0 mem s call (s.step call) := by
  have hgoing : ¬s.stopped.isSome = true := by simp [hclean.of_step.1]
  have hd := h.distinct
  unfold Session.step at hclean ⊢
  rw [if_neg hgoing] at hclean ⊢
  cases call with
  | alloc size => exact h.quiet rfl hclean (allotted_inStep fun _ _ _ => alloc_allotted)
  | allocArray elemSize n =>
    exact h.quiet rfl hclean (allotted_inStep fun _ _ _ => allocArray_allotted)
  | allocPadded elemSize n =>
    exact h.quiet rfl hclean (allotted_inStep fun _ _ _ => allocPadded_allotted)
  | allocTensorMatrix rows cols =>
    exact h.quiet rfl hclean (allotted_inStep fun _ _ _ => allocTensorMatrix_allotted)
  | upload elemSize n data =>
    exact h.plain hclean (upload_inStep hex hd) fun _ _ hs => ⟨_, fun _ => .upload, hs⟩
  | allocMark =>
    exact .perform hclean (allocMark_inStep.pre fun _ heq => heq ▸ h.inStep) fun mark sys hsys =>
      ⟨mem, .made rfl (.quiet rfl), hd, hsys⟩
  | resetTo k =>
    dsimp only at hclean ⊢
    split
    · rename_i mark hk
      simp only [hk] at hclean
      exact h.quiet rfl hclean resetTo_inStep
    · exact h.ignored
  | loadKernel image slice =>
    refine h.plain hclean (loadKernel_inStep hex hd slice) fun kernel _ hs => ?_
    obtain ⟨elf, hparse, rfl, hs⟩ := hs
    exact ⟨_, fun _ => .loadKernel hparse, hs⟩
  | launchAsync kernel opts =>
    refine .perform hclean ((launchAsync_inStep hex hd hmain.1 hmain.2).pre
      fun _ heq => heq ▸ h.inStep) fun launch sys hsys => ?_
    obtain ⟨ptr, a, ha, hlaunch, hs⟩ := hsys
    refine ⟨_, .made rfl (.launchAsync ha hlaunch), hd, hs.perm ?_⟩
    simp only [unwaited, List.filter_append]
    exact (List.perm_append_singleton _ _).symm
  | waitLaunch k =>
    dsimp only at hclean ⊢
    split
    · rename_i handle s' htake
      simp only [htake] at hclean
      exact h.waitLaunch hex htake hclean
    · exact h.ignored
  | dropLaunch k =>
    dsimp only at hclean ⊢
    split
    · rename_i handle s' htake
      exact h.dropLaunch htake
    · exact h.ignored
  | memcpyH2d src dst opts =>
    exact h.plain hclean (memcpyH2d_inStep hex hd hmain) fun _ _ hs =>
      ⟨_, fun _ => .memcpyH2d, hs⟩
  | memcpyD2h src len opts =>
    refine h.plain hclean (memcpyD2h_inStep hex hd hmain) fun out _ hs => ?_
    obtain ⟨rfl, hs⟩ := hs
    exact ⟨_, fun _ => .memcpyD2h, hs⟩
  | fill r value =>
    exact h.plain hclean (fillRegion_inStep hex hd) fun _ _ hs => ⟨_, fun _ => .fill, hs⟩
  | allocPinned len =>
    refine .perform hclean ((allocPinned_inStep hex hd).pre fun _ heq => heq ▸ h.inStep)
      fun buffer sys hsys => ?_
    obtain ⟨host, hhost, hdistinct, hs⟩ := hsys
    have hhosts : ∀ t : Session, t.pinned = s.pinned ++ [buffer] → t.hosts = s.hosts ++ [host] :=
      fun t ht => by simp [hosts, ht, hhost]
    exact ⟨mem, .made rfl (.quiet rfl), by rw [hhosts _ rfl]; exact hdistinct,
      by rw [hhosts _ rfl]; exact hs⟩
  | writePinned k data =>
    dsimp only at hclean ⊢
    split
    · rename_i buffer hk
      simp only [hk] at hclean
      exact h.quiet rfl hclean (writePinned_inStep hex hd fun host => mem_hosts hk)
    · exact h.ignored
  | memcpyH2dPinned k dst opts =>
    exact h.transferPinned hclean
      (fun buffer hk => memcpyH2dPinned_inStep hex hd hmain fun host => mem_hosts hk)
      fun buffer sys hk hs => ⟨_, fun _ _ _ => .memcpyH2dPinned hk, hs⟩
  | memcpyD2hPinned src k opts =>
    refine h.transferPinned hclean (fun buffer hk => (memcpyD2hPinned_inStep hex hd hmain
      fun host => mem_hosts hk).pre fun _ h => h.1) fun buffer sys hk hend => ?_
    obtain ⟨hbytes, hs⟩ := hend
    refine ⟨mem, fun t s' ht => ?_, hs⟩
    rw [pinnedBytes_eq, ht, hbytes, buffer.length_bytes _ s.sys.world.host]
    exact .memcpyD2hPinned hk
  | dropPinned k =>
    dsimp only at hclean ⊢
    split
    · rename_i buffer hk
      simp only [hk] at hclean
      obtain ⟨hsub, -⟩ := hosts_set { buffer with host := none, len := 0 } hk rfl hd
      refine .perform hclean ((dropPinned_inStep hd hsub.subset fun host hh => mem_hosts hk
        (by simpa using hh)).pre fun _ heq => heq ▸ h.inStep) fun _ sys hsys =>
          ⟨mem, .made rfl (.quiet rfl), hd.sublist hsub, hsys⟩
    · exact h.ignored
  | resetShires shireMask => exact hmain.elim
  | setStagingCapacity bytes => exact h.quiet rfl hclean setStagingCapacity_inStep
  | setDefaultLaunchTimeout timeout => exact h.quiet rfl hclean setDefaultTimeout_inStep
  | idle => exact h.quiet rfl hclean (tick_inStep hex)

theorem InTurn.run (hex : machine.Exact) {calls : List Call} (h : InTurn machine m0 mem s)
    (hmain : ∀ call ∈ calls, call.Main) (hclean : (s.run calls).Clean) :
    ∃ mem', Sequential machine s calls mem mem' ∧ InTurn machine m0 mem' (s.run calls) := by
  induction calls generalizing s mem with
  | nil => exact ⟨mem, .nil, h⟩
  | cons call calls ih =>
    obtain ⟨hcall, hcalls⟩ := List.forall_mem_cons.1 hmain
    obtain ⟨mem', hserves, hstep⟩ := h.step hex hcall (Clean.of_run (s := s.step call) hclean)
    obtain ⟨mem'', hsequential, hrun⟩ := ih hstep hcalls hclean
    exact ⟨mem'', .cons hserves hsequential, hrun⟩

theorem InTurn.init {setup : Setup} (hbears : setup.machine.bearsTag = true) :
    InTurn setup.machine setup.mem setup.mem (init setup) := by
  have hgood : Good True (· = .init setup.machine setup.mem) (Session.init setup) := .initial hbears rfl
  obtain ⟨hdistinct, acc, fr, hidle, hs⟩ := hgood.resting rfl fun hcut => absurd rfl hcut
  have hframe := hs.frame
  have hslots : fr.argsSlots = [] := (congrArg Frame.argsSlots hframe).symm
  have hacc : acc = [] := hs.world.2.symm
  refine ⟨hdistinct, acc, fr, ⟨hidle, ?_, ?_⟩, Rests.mono hs fun w hw => ?_⟩
  · simp [hslots, SlotsApart]
  · rw [hacc, carryOutAll_nil]
  · subst hw
    exact ⟨.init mainQueue setup.machine setup.mem, by simp [hslots, World.Parked]⟩

/-- However the device times the commands of calls on the main queue, the calls return what
they would if each were carried out at once, and once all commands have been answered the
device memory is what they make of it. -/
theorem sequential {setup : Setup} {calls : List Call} (hbears : setup.machine.bearsTag = true)
    (hex : setup.machine.Exact) (hmain : ∀ call ∈ calls, call.Main)
    (hclean : ((init setup).run calls).Clean) :
    ∃ mem, Sequential setup.machine (init setup) calls setup.mem mem ∧
      ((∀ c < ((init setup).run calls).sys.world.accepted.length,
          (((init setup).run calls).sys.world.answer c).isSome = true) →
        ((init setup).run calls).sys.world.mem = mem) := by
  obtain ⟨mem, hsequential, -, acc, fr, ⟨-, -, hmem⟩, hs⟩ :=
    (InTurn.init hbears).run hex hmain hclean
  refine ⟨mem, hsequential, fun hanswered => ?_⟩
  obtain ⟨hw, hacc⟩ := hs.world
  rw [hw.base.extra.1.mem_of_answered hanswered, show _ = acc from hacc, hmem]

/-- A device that takes the arguments, the launch and a read before it does anything, and whose
kernel copies the first byte of its arguments to address 64. -/
def overlapping : Setup := { obliging with
  machine := ⟨true, true, true, true, false,
    fun launch mem => update mem 64 (mem launch.pointerToArgs), 4096⟩
  script := List.replicate 9 ⟨[], .yes⟩ ++
    [⟨[.start 0, .copy 0 0, .answer 0 (complete 0), .start 1, .exec 1, .answer 1 (complete 1),
        .start 2, .copy 2 0, .answer 2 (complete 2)], .response 0 0⟩,
      ⟨[], .response 1 0⟩, ⟨[], .response 2 0⟩, ⟨[], .yes⟩] }

def overlaps : List Call :=
  [.launchAsync ⟨0⟩ { LaunchOptions.new 1 with args := [7] }, .memcpyD2h 64 1 .default,
    .waitLaunch 0]

theorem sequential_overlapping :
    ∃ mem, Sequential overlapping.machine (init overlapping) overlaps overlapping.mem mem ∧
      ((init overlapping).run overlaps).sys.world.mem = mem := by
  have hmain : ∀ call ∈ overlaps, call.Main := by
    simp [overlaps, Call.Main, LaunchOptions.new, DmaOptions.default]
  have hclean : ((init overlapping).run overlaps).Clean := by decide +kernel
  obtain ⟨mem, hsequential, hmem⟩ := sequential rfl ⟨rfl, rfl, rfl⟩ hmain hclean
  exact ⟨mem, hsequential, hmem (by decide +kernel)⟩

end Session

end EtSoc

import EtSoc.Verification.Session.Accounting

/-! # What the transfers of a session deliver -/

namespace EtSoc

open Function Program

/-- No command under way may change the device byte `x`. -/
def World.Settled (w : World) (x : ℕ) : Prop :=
  ∀ c a, w.accepted[c]? = some a → w.answer c = none → ¬w.machine.MayWrite a x

/-- The commands `own` were accepted between the two worlds, and reported success. -/
structure Performed (w w' : World) (own : List Accepted) : Prop where
  accepted : w'.accepted = w.accepted ++ own
  completed : w'.CompletedFrom w.accepted.length w'.accepted.length

/-- Between the two worlds, `data` was stored in the device bytes of `region`, and nothing
else, as far as the commands before have no part in it. -/
structure Stored (region : ℕ → Prop) (data : Memory) (w w' : World) : Prop where
  inside : ∀ x, region x → w.Settled x → w'.mem x = data x
  outside : ∀ x, ¬region x → w.Settled x → w'.mem x = w.mem x
  own : ∃ own, Performed w w' own ∧ ∀ a ∈ own, ∀ x, w.machine.MayWrite a x → region x

/-- Between the two worlds, the bytes `out` were read from the `len` device bytes at `src`,
and none was written, as far as the commands before have no part in it. -/
structure Fetched (src len : ℕ) (out : List UInt8) (w w' : World) : Prop where
  length : out.length = len
  bytes : ∀ k < len, w.Settled (src + k) → out[k]? = some (w.mem (src + k))
  mem : ∀ x, w.Settled x → w'.mem x = w.mem x
  own : ∃ own, Performed w w' own ∧ ∀ a ∈ own, ∀ x, ¬w.machine.MayWrite a x

/-! ## Storing -/

/-- A command that stores some of `data`, out of staging buffers. -/
structure Stores (region : ℕ → Prop) (data : Memory) (a : Accepted) : Prop where
  isWrite : a.cmd.isWrite = true
  launch : a.cmd.launch? = none
  payload : Payload data a
  staging : ∀ n ∈ a.cmd.nodes, n.hostVirtAddr.buf.purpose = .staging
  within : ∀ n ∈ a.cmd.nodes, ∀ k < n.size, region (n.devicePhyAddr + k)

def storing (region : ℕ → Prop) (data : Memory) : Env := ⟨Stores region data, (· = .staging)⟩

variable {region : ℕ → Prop} {data : Memory} {w₀ w : World} {a : Accepted}
  {own acc : List Accepted}

theorem Stores.of_mayWrite {machine : Machine} {x : ℕ} (h : Stores region data a)
    (hw : machine.MayWrite a x) : region x := by
  obtain ⟨-, n, hn, hlo, hhi⟩ | ⟨launch, hlaunch, -⟩ := hw
  · have := h.within n hn (x - n.devicePhyAddr) (by omega)
    rwa [show n.devicePhyAddr + (x - n.devicePhyAddr) = x by omega] at this
  · simp [h.launch] at hlaunch

theorem Sends.stores {sq : UInt16} {dst total : ℕ}
    (h : Sends (storing region data) .staging sq dst total data a)
    (hregion : ∀ x, dst ≤ x → x < dst + total → region x) : Stores region data a := by
  refine ⟨h.1.isWrite_eq, h.1.launch?_eq, h.2 rfl, h.purpose_eq, fun n hn k hk => ?_⟩
  obtain ⟨-, hlo, hhi⟩ := h.1.within n hn
  exact hregion _ (by omega) (by omega)

/-- The commands `own` store `data` in all of `region`. -/
structure StoresAll (region : ℕ → Prop) (data : Memory) (own : List Accepted) : Prop where
  stores : ∀ a ∈ own, Stores region data a
  cover : ∀ x, region x → ∃ a ∈ own, ∃ n ∈ a.cmd.nodes,
    n.devicePhyAddr ≤ x ∧ x < n.devicePhyAddr + n.size

theorem Delivers.storesAll {sq : UInt16} {dst total : ℕ}
    (h : Delivers (storing region data).strict .staging sq dst total data own)
    (hregion : ∀ x, region x ↔ dst ≤ x ∧ x < dst + total) : StoresAll region data own := by
  refine ⟨fun a ha => (h.sends a ha).stores fun x hlo hhi => (hregion x).2 ⟨hlo, hhi⟩,
    fun x hx => ?_⟩
  obtain ⟨hlo, hhi⟩ := (hregion x).1 hx
  obtain ⟨a, ha, n, hn, hspan⟩ := h.transfers.cover (x - dst) (by omega)
  rw [show dst + (x - dst) = x by omega] at hspan
  exact ⟨a, ha, n, hn, hspan⟩

/-- What holds of the world from `w₀` on while `data` is being stored. -/
def Storing (region : ℕ → Prop) (data : Memory) (w₀ w : World) : Prop :=
  (w.machine = w₀.machine ∧ Disciplined (storing region data).strict w ∧
    Putting (storing region data) w₀.accepted.length (fun x => region x ∧ w₀.Settled x) data w) ∧
  (w.machine = w₀.machine ∧ w.Still (fun x => ¬region x ∧ w₀.Settled x) w₀.mem)

theorem stable_storing : Stable (storing region data) (Storing region data w₀) :=
  (stable_putting fun a (ha : Stores region data a) _ _ _ => ⟨ha.launch, ha.payload, ha.staging⟩).and
    (stable_still fun a (ha : Stores region data a) _ hx hw => hx.1 (ha.of_mayWrite hw))

theorem Storing.init (h : Disciplined (· = .staging) w₀) : Storing region data w₀ w₀ :=
  ⟨⟨rfl, h, .init fun _ hx => hx.2⟩, rfl, fun _ hx => ⟨rfl, hx.2⟩⟩

theorem Storing.stored (h : Storing region data w₀ w) (hs : w.Sound)
    (hexec : w₀.machine.executes = true) (hown : StoresAll region data own)
    (hdone : Performed w₀ w own) : Stored region data w₀ w := by
  obtain ⟨⟨hmachine, -, hput⟩, -, hstill⟩ := h
  refine ⟨fun x hx hset => ?_, fun x hx hset => (hstill x ⟨hx, hset⟩).1, own, hdone,
    fun a ha x hw => (hown.stores a ha).of_mayWrite hw⟩
  obtain ⟨a, ha, n, hn, hlo, hhi⟩ := hown.cover x hx
  obtain ⟨i, hi⟩ := List.getElem?_of_mem ha
  have hat : w.accepted[w₀.accepted.length + i]? = some a := by
    rw [hdone.accepted, List.getElem?_append_right (Nat.le_add_right ..), Nat.add_sub_cancel_left]
    exact hi
  have hstores := hown.stores a ha
  have hmem := hput.arrived hs (hmachine ▸ hexec) (Nat.le_add_right ..) hat hstores.isWrite
    hstores.payload (hdone.completed _ (Nat.le_add_right ..) (List.getElem?_eq_some_iff.1 hat).1) hn
    (k := x - n.devicePhyAddr) (by omega)
  rw [show n.devicePhyAddr + (x - n.devicePhyAddr) = x by omega] at hmem
  exact hmem ⟨hx, hset⟩

/-! ## Sessions -/

theorem World.disciplined_init (strict : Purpose → Prop) (machine : Machine) (mem : Memory) :
    Disciplined strict (.init machine mem) := by
  refine ⟨?_, ?_, ?_⟩
  · simp [World.Mapped, World.init]
  · rintro b c a c' a' - ⟨ha, -⟩
    simp [World.init] at ha
  · rintro b c a - ⟨ha, -⟩
    simp [World.init] at ha

namespace Session

variable {s : Session} {sys' : Sys}

/-- The staging buffers have been under discipline in any clean run. -/
theorem disciplined_run {setup : Setup} (calls : List Call)
    (hbears : setup.machine.bearsTag = true) (hclean : ((init setup).run calls).sys.Clean) :
    Good True (Disciplined (· = .staging)) ((init setup).run calls) :=
  Good.run _ (stable_disciplined (Env.any (· = .staging))) (by simp) calls
    (.initial hbears (World.disciplined_init ..)) fun _ _ => hclean

/-- A call whose commands store all of `data` stores it. -/
theorem Good.stored {α : Type} {m : M α} {a : α} (h : Good True (Disciplined (· = .staging)) s)
    (hstop : s.stopped = none) (hclean : s.sys.Clean)
    (hexec : s.sys.world.machine.executes = true)
    (hm : ∀ X acc fr, Stable (storing region data) X → Idle fr → Distinct s.hosts →
      fr = s.sys.frame →
      Triple (Rests True X acc fr s.unwaited s.hosts) m (Ends (fun _ s' => ∃ own fr',
        StoresAll region data own ∧ Rests True (fun w => X w ∧
          w.CompletedFrom acc.length (acc ++ own).length) (acc ++ own) fr' s.unwaited s.hosts s')
        fun _ _ => True))
    (hrun : m s.sys = (.ok a, sys')) : Stored region data s.sys.world sys'.world := by
  obtain ⟨hdistinct, acc, fr, hidle, hs⟩ := h.resting hstop hclean
  have hstart : Rests True (Storing region data s.sys.world) acc fr s.unwaited s.hosts s.sys :=
    ⟨hs.tags, ⟨hs.world.1.mono fun hbase => hbase.mono fun hdisc => .init hdisc, hs.world.2⟩, hs.frame⟩
  obtain ⟨own, fr', hown, hs'⟩ :=
    (hm _ acc fr stable_storing hidle hdistinct hs.frame.symm).of_ok hstart hrun
  obtain ⟨hshelf, hacc⟩ := hs'.world
  refine hshelf.base.extra.1.stored hs'.tags.sound hexec hown ⟨?_, ?_⟩
  · rw [hacc, hs.world.2]
  · rw [hacc, hs.world.2]
    exact hshelf.base.extra.2

/-- The device bytes `[addr, addr + len)`. -/
def span (addr len : ℕ) (x : ℕ) : Prop := addr ≤ x ∧ x < addr + len

theorem Good.memcpyH2d {src : List UInt8} {dst : ℕ} {opts : DmaOptions}
    (h : Good True (Disciplined (· = .staging)) s) (hstop : s.stopped = none) (hclean : s.sys.Clean)
    (hexec : s.sys.world.machine.executes = true)
    (hrun : memcpyH2dOpts src dst opts s.sys = (.ok (), sys')) :
    Stored (span dst src.length) (fun x => src.getD (x - dst) 0) s.sys.world sys'.world :=
  h.stored hstop hclean hexec (fun _ _ _ hX hidle hdistinct _ =>
    (memcpyH2d_rests _ _ _ hX hidle hdistinct (fun _ => trivial) fun _ ha => ha.stores fun _ hlo hhi =>
      ⟨hlo, hhi⟩).conseq (fun _ h => h) (fun _ _ ⟨own, fr', hown, _, _, hs⟩ =>
        ⟨own, fr', hown.storesAll fun _ => Iff.rfl, hs⟩) (fun _ _ _ => trivial) fun _ h => h) hrun

theorem Good.fill {r : DeviceRegion} {value : UInt8}
    (h : Good True (Disciplined (· = .staging)) s) (hstop : s.stopped = none) (hclean : s.sys.Clean)
    (hexec : s.sys.world.machine.executes = true)
    (hrun : fillRegion r value s.sys = (.ok (), sys')) :
    Stored (span r.addr r.size) (fun _ => value) s.sys.world sys'.world :=
  h.stored hstop hclean hexec (fun _ _ _ hX hidle hdistinct _ =>
    (fillRegion_rests hX hidle hdistinct (fun _ => trivial) fun _ ha => ha.stores fun _ hlo hhi =>
      ⟨hlo, hhi⟩).conseq (fun _ h => h) (fun _ _ ⟨own, fr', hown, _, _, hs⟩ =>
        ⟨own, fr', hown.storesAll fun _ => Iff.rfl, hs⟩) (fun _ _ _ => trivial) fun _ h => h) hrun

/-! ## Fetching -/

/-- An environment of commands that fetch bytes from `src`. -/
def fetching (sq : UInt16) (src len : ℕ) : Env := ⟨Fetches .staging sq src len, fun _ => True⟩

/-- What holds of the world from `w₀` on while nothing is stored. -/
def Reading (w₀ w : World) : Prop := w.machine = w₀.machine ∧ w.Still w₀.Settled w₀.mem

theorem Fetches.not_mayWrite {purpose : Purpose} {sq : UInt16} {src len x : ℕ} {machine : Machine}
    (h : EtSoc.Fetches purpose sq src len a) : ¬machine.MayWrite a x := by
  rintro (⟨hw, -⟩ | ⟨launch, hlaunch, -⟩)
  · rw [h.isWrite_eq] at hw
    simp at hw
  · simp [h.launch?_eq] at hlaunch

theorem stable_reading {sq : UInt16} {src len : ℕ} : Stable (fetching sq src len) (Reading w₀) :=
  stable_still fun _ ha _ _ => Fetches.not_mayWrite ha

theorem Good.memcpyD2h {X : World → Prop} {src len : ℕ} {opts : DmaOptions} {out : List UInt8}
    (h : Good True X s) (hstop : s.stopped = none) (hclean : s.sys.Clean)
    (hexec : s.sys.world.machine.executes = true)
    (hrun : memcpyD2hOpts src len opts s.sys = (.ok out, sys')) :
    Fetched src len out s.sys.world sys'.world := by
  obtain ⟨hdistinct, acc, fr, hidle, hs⟩ := h.resting hstop hclean
  have hstart : Rests True (Reading s.sys.world) acc fr s.unwaited s.hosts s.sys :=
    ⟨hs.tags, ⟨hs.world.1.mono fun hbase => hbase.mono fun _ => ⟨rfl, fun _ hx => ⟨rfl, hx⟩⟩,
      hs.world.2⟩, hs.frame⟩
  have hshows : Shows (fetching opts.sqIndex src len) (Reading s.sys.world) acc s.sys.world.mem
      s.sys.world.Settled :=
    ⟨fun _ _ _ => trivial, fun _ _ _ hw => hw.1 ▸ hexec, fun _ _ hw _ _ _ _ _ _ hx => (hw.2 _ hx).1⟩
  obtain ⟨own, fr', hown, -, -, hs'⟩ := (memcpyD2h_rests
    stable_reading hidle hdistinct (fun _ => trivial) hshows fun _ ha => ha).of_ok hstart hrun
  obtain ⟨hshelf, hacc⟩ := hs'.world
  obtain ⟨hreading, hdone⟩ := hshelf.base.extra
  refine ⟨hown.2.1, hown.2.2, fun x hx => (hreading.2 x hx).1, own, ⟨?_, ?_⟩, fun a ha x =>
    Fetches.not_mayWrite (hown.1.carries a ha)⟩
  · rw [hacc, hs.world.2]
  · rw [hacc, hs.world.2]
    exact hdone

/-- From every state in which each outstanding tag was abandoned or has a handle, what a copy
reports to have moved was moved. -/
theorem copies_exactly {setup : Setup} (calls : List Call) (hbears : setup.machine.bearsTag = true)
    (hexec : setup.machine.executes = true) (hstop : ((init setup).run calls).stopped = none)
    (hcovered : ((init setup).run calls).Covered) :
    (∀ src dst opts sys', memcpyH2dOpts src dst opts ((init setup).run calls).sys = (.ok (), sys') →
      Stored (span dst src.length) (fun x => src.getD (x - dst) 0) ((init setup).run calls).sys.world
        sys'.world) ∧
    ∀ src len opts out sys', memcpyD2hOpts src len opts ((init setup).run calls).sys =
      (.ok out, sys') → Fetched src len out ((init setup).run calls).sys.world sys'.world := by
  have hclean := (good_run hbears calls).clean_of_covered hstop hcovered
  have h := disciplined_run calls hbears hclean
  have hexec' : ((init setup).run calls).sys.world.machine.executes = true := by
    rw [run_machine]
    exact hexec
  exact ⟨fun _ _ _ _ hrun => h.memcpyH2d hstop hclean hexec' hrun,
    fun _ _ _ _ _ hrun => h.memcpyD2h hstop hclean hexec' hrun⟩

/-- A device that answers one command at once, with success. -/
def prompt : Setup where
  machine := ⟨true, true, true, true, true, fun _ m => m, 4096⟩
  mem := fun _ => 0
  address := 0
  dram := ⟨0, 2 ^ 20, 16, 2, 64⟩
  defaultTimeout := 5
  script :=
    [⟨[], .yes⟩, ⟨[], .yes⟩, ⟨[], .yes⟩, ⟨[], .yes⟩,
      ⟨[.start 0, .copy 0 0, .answer 0 (List.replicate 36 0)], .response 0 0⟩]

/-- A transfer that fails is followed by an upload in three chunks of two commands each, and by
the download of what was stored. -/
def cycling : Setup := narrow (granted 3 ++ [served 0 0 1] ++ granted 8 ++
  [served 1 1 0, served 2 2 0] ++ granted 3 ++
  [served 3 3 0, served 4 4 0, served 5 5 0, served 6 6 0] ++ granted 4 ++
  [served 7 7 0, served 8 8 0] ++ granted 3 ++ [served 9 9 0, served 10 10 0] ++ granted 1 ++
  [served 11 11 0, served 12 12 0] ++ granted 1)

def cycling.calls : List Call := [.setStagingCapacity 1, .memcpyD2h 0 2 .default]

def eleven : List UInt8 := [1, 2, 3, 4, 5, 6, 7, 8, 9, 10, 11]

def cycling.stored : List Call := cycling.calls ++ [.memcpyH2d eleven 8 .default]

theorem copies_exactly_cycling :
    (∃ sys', memcpyH2dOpts eleven 8 .default ((init cycling).run cycling.calls).sys =
      (.ok (), sys') ∧ Stored (span 8 11) (fun x => eleven.getD (x - 8) 0)
        ((init cycling).run cycling.calls).sys.world sys'.world) ∧
    ∃ sys', memcpyD2hOpts 8 11 .default ((init cycling).run cycling.stored).sys =
      (.ok eleven, sys') ∧
        Fetched 8 11 eleven ((init cycling).run cycling.stored).sys.world sys'.world := by
  constructor
  · obtain ⟨sys', hrun⟩ : ∃ sys', memcpyH2dOpts eleven 8 .default
      ((init cycling).run cycling.calls).sys = (.ok (), sys') := Prog.eq_ok_of (by decide +kernel)
    exact ⟨sys', hrun, (copies_exactly cycling.calls rfl rfl (by decide +kernel)
      (by decide +kernel)).1 _ _ _ _ hrun⟩
  · obtain ⟨sys', hrun⟩ : ∃ sys', memcpyD2hOpts 8 11 .default
      ((init cycling).run cycling.stored).sys = (.ok eleven, sys') :=
        Prog.eq_ok_of (by decide +kernel)
    exact ⟨sys', hrun, (copies_exactly cycling.stored rfl rfl (by decide +kernel)
      (by decide +kernel)).2 _ _ _ _ _ hrun⟩

/-- The second command fetches after the buffer was filled anew, and before the two
commands that store its contents. -/
def late : Setup := torn
  [⟨[], .yes⟩, ⟨[], .yes⟩, ⟨[], .yes⟩,
    ⟨[.start 1, .copy 1 0, .answer 1 (complete 1), .start 2, .copy 2 0, .copy 2 0,
      .answer 2 (complete 2), .start 3, .copy 3 0, .answer 3 (complete 3)], .response 2 0⟩,
    ⟨[], .response 3 0⟩]

theorem settled_late (x : ℕ) :
    ((init late).run [.memcpyD2h 0 40 .default]).sys.world.Settled x := by
  have hreads : ∀ a ∈ ((init late).run [.memcpyD2h 0 40 .default]).sys.world.accepted,
      a.cmd.isWrite = false := by decide +kernel
  rintro c a ha - (⟨hw, -⟩ | ⟨launch, -, mem, hne⟩)
  · simp [hreads a (List.mem_of_getElem? ha)] at hw
  · rw [run_machine] at hne
    exact hne rfl

/-- The transfer reports success, and has stored zeros that the late command fetched. -/
theorem not_copies_exactly_late : late.machine.bearsTag = true ∧ late.machine.executes = true ∧
    ((init late).run [.memcpyD2h 0 40 .default]).stopped = none ∧
    ∃ sys', memcpyH2dOpts (List.replicate 40 7) 0 .default
        ((init late).run [.memcpyD2h 0 40 .default]).sys = (.ok (), sys') ∧
      ¬Stored (span 0 40) (fun x => (List.replicate 40 7).getD (x - 0) 0)
        ((init late).run [.memcpyD2h 0 40 .default]).sys.world sys'.world := by
  obtain ⟨_, sys', hrun⟩ : ∃ a sys', memcpyH2dOpts (List.replicate 40 7) 0 .default
    ((init late).run [.memcpyD2h 0 40 .default]).sys = (.ok a, sys') := Prog.eq_ok (by decide +kernel)
  have hmem : (memcpyH2dOpts (List.replicate 40 7) 0 .default
      ((init late).run [.memcpyD2h 0 40 .default]).sys).2.world.mem 32 = 0 := by decide +kernel
  rw [hrun] at hmem
  refine ⟨rfl, rfl, by decide +kernel, sys', hrun, fun h => ?_⟩
  have hbyte := h.inside 32 ⟨by omega, by omega⟩ (settled_late 32)
  rw [hmem] at hbyte
  simp at hbyte

/-- From every state in which each outstanding tag was abandoned or has a handle, a fill stores
its value everywhere in the region. -/
theorem fills {setup : Setup} (calls : List Call) (hbears : setup.machine.bearsTag = true)
    (hexec : setup.machine.executes = true) (hstop : ((init setup).run calls).stopped = none)
    (hcovered : ((init setup).run calls).Covered) (r : DeviceRegion) (value : UInt8) (sys' : Sys)
    (hrun : fillRegion r value ((init setup).run calls).sys = (.ok (), sys')) :
    Stored (span r.addr r.size) (fun _ => value) ((init setup).run calls).sys.world sys'.world := by
  have hclean := (good_run hbears calls).clean_of_covered hstop hcovered
  exact (disciplined_run calls hbears hclean).fill hstop hclean (by rw [run_machine]; exact hexec) hrun

theorem fills_cycling : ∃ sys', fillRegion ⟨8, 11⟩ 7 ((init cycling).run cycling.calls).sys =
    (.ok (), sys') ∧ Stored (span 8 11) (fun _ => 7) ((init cycling).run cycling.calls).sys.world
      sys'.world := by
  obtain ⟨sys', hrun⟩ : ∃ sys', fillRegion ⟨8, 11⟩ 7 ((init cycling).run cycling.calls).sys =
    (.ok (), sys') := Prog.eq_ok_of (by decide +kernel)
  exact ⟨sys', hrun, fills cycling.calls rfl rfl (by decide +kernel) (by decide +kernel) ⟨8, 11⟩ 7
    sys' hrun⟩

/-- The fill reports success, and has stored zeros that the late command fetched. -/
theorem not_fills_late : late.machine.bearsTag = true ∧ late.machine.executes = true ∧
    ((init late).run [.memcpyD2h 0 40 .default]).stopped = none ∧
    ∃ sys', fillRegion ⟨0, 40⟩ 7 ((init late).run [.memcpyD2h 0 40 .default]).sys = (.ok (), sys') ∧
      ¬Stored (span 0 40) (fun _ => 7) ((init late).run [.memcpyD2h 0 40 .default]).sys.world
        sys'.world := by
  obtain ⟨_, sys', hrun⟩ : ∃ a sys', fillRegion ⟨0, 40⟩ 7
    ((init late).run [.memcpyD2h 0 40 .default]).sys = (.ok a, sys') := Prog.eq_ok (by decide +kernel)
  have hmem : (fillRegion ⟨0, 40⟩ 7
      ((init late).run [.memcpyD2h 0 40 .default]).sys).2.world.mem 32 = 0 := by decide +kernel
  rw [hrun] at hmem
  refine ⟨rfl, rfl, by decide +kernel, sys', hrun, fun h => ?_⟩
  have hbyte := h.inside 32 ⟨by omega, by omega⟩ (settled_late 32)
  rw [hmem] at hbyte
  simp at hbyte

end Session

end EtSoc

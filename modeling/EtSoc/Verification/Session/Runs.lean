import EtSoc.Verification.Session.Launching
import EtSoc.Verification.Session.Loads
import EtSoc.Verification.Session.PinnedCalls
import EtSoc.Verification.Session.Steadfast

/-! # Runs of a session -/

namespace EtSoc

open Function Program

/-- An environment in which any command may come, and the buffers of some purposes are
disciplined. -/
def Env.any (strict : Purpose → Prop) : Env := ⟨fun _ => True, strict⟩

/-- No call is running. -/
def Resting (clean : Prop) (X : World → Prop) (handles : List Handle)
    (pinned : List DmaHostBuffer) (s : Sys) : Prop :=
  ∃ acc fr, Idle fr ∧ Rests clean X acc fr handles pinned s

/-- A call has returned. -/
def Paused (clean : Prop) (X : World → Prop) (handles : List Handle)
    (pinned : List DmaHostBuffer) (s : Sys) : Prop :=
  Resting (clean ∧ s.Clean) X handles pinned s

variable {strict : Purpose → Prop} {clean clean' : Prop} {X : World → Prop} {acc : List Accepted}
  {fr : Frame} {handles handles' : List Handle}
  {pinned : List DmaHostBuffer} {F : Error → Sys → Prop}

theorem Resting.inOrder {s : Sys} (h : Resting clean X handles pinned s) : InOrder s := by
  obtain ⟨acc, fr, -, hs⟩ := h
  exact Ready.inOrder hs

theorem Resting.weaken {s : Sys} (h : Resting clean X handles pinned s)
    (hclean : clean' → clean) : Resting clean' X handles pinned s := by
  obtain ⟨acc, fr, hidle, hs⟩ := h
  exact ⟨acc, fr, hidle, hs.weaken hclean⟩

theorem Resting.paused {s : Sys} (h : Resting clean X handles pinned s) :
    Paused clean X handles pinned s :=
  h.weaken And.left

theorem Rests.paused {s : Sys} (hidle : Idle fr) (h : Rests clean X acc fr handles pinned s) :
    Paused clean X handles pinned s :=
  Resting.paused ⟨acc, fr, hidle, h⟩

theorem resting_spec {α : Type} {m : M α} {Q : Post Sys Error α}
    (h : ∀ acc fr, Idle fr → Triple (Rests clean X acc fr handles pinned) m Q) :
    Triple (Resting clean X handles pinned) m Q := by
  rintro s ⟨acc, fr, hidle, hs⟩
  exact h acc fr hidle s hs

/-- A call that leaves the client with what it had. -/
def Rest (clean : Prop) (X : World → Prop) (handles : List Handle)
    (pinned : List DmaHostBuffer) {α : Type} : Post Sys Error α :=
  Ends (fun _ => Paused clean X handles pinned) fun _ => Paused clean X handles pinned

theorem Allotted.paused {s : Sys} (hidle : Idle fr)
    (h : Allotted clean X acc fr handles pinned s) : Paused clean X handles pinned s := by
  obtain ⟨fr', hallots, hs⟩ := h
  exact hs.paused (hidle.alike hallots.alike)

theorem Finished.paused {R : List Accepted → Prop} {s : Sys}
    (h : Finished clean R X acc fr handles pinned s) : Paused clean X handles pinned s := by
  obtain ⟨own, fr', -, -, hidle, hs⟩ := h
  exact (Rests.mono hs fun _ hw => hw.1).paused hidle

theorem GaveUp.paused {carries : Accepted → Prop} {s : Sys}
    (h : GaveUp clean carries X acc fr handles pinned s) : Paused clean X handles pinned s := by
  obtain ⟨own, fr', -, -, hidle, hs⟩ := h
  exact ⟨acc ++ own, fr', hidle, hs⟩

/-! ## Each call -/

/-- No byte is claimed to be shown. -/
theorem shows_none {E : Env} {M : Memory} : Shows E X acc M fun _ => False :=
  ⟨fun _ h => h.elim, fun _ h => h.elim, fun _ _ _ _ _ _ _ _ _ h => h.elim⟩

section
variable (hX : Stable (.any strict) X) (hdistinct : Distinct pinned)
  (hstrict : ∀ p, strict p → clean)

theorem allotted_resting {α : Type} {m : M α}
    (h : ∀ acc fr, Triple (Rests clean X acc fr handles pinned) m
      (Ends (fun _ => Allotted clean X acc fr handles pinned)
        fun _ => Allotted clean X acc fr handles pinned)) :
    Triple (Resting clean X handles pinned) m (Rest clean X handles pinned) :=
  resting_spec fun acc fr hidle => (h acc fr).conseq (fun _ h => h) (fun _ _ h => h.paused hidle)
    (fun _ _ h => h.paused hidle) fun _ h => h

theorem staged_resting {α : Type} {m : M α} {R : α → List Accepted → Prop}
    {carries : Accepted → Prop}
    (h : ∀ acc fr, Idle fr → Triple (Rests clean X acc fr handles pinned) m
      (Ends (fun out => Finished clean (R out) X acc fr handles pinned)
        fun _ => GaveUp clean carries X acc fr handles pinned)) :
    Triple (Resting clean X handles pinned) m (Rest clean X handles pinned) :=
  resting_spec fun acc fr hidle => (h acc fr hidle).conseq (fun _ h => h) (fun _ _ h => h.paused)
    (fun _ _ h => h.paused) fun _ h => h

include hX hdistinct hstrict

theorem memcpyH2d_resting {bytes : List UInt8} {dst : ℕ} {opts : DmaOptions} :
    Triple (Resting clean X handles pinned) (memcpyH2dOpts bytes dst opts) (Rest clean X handles pinned) :=
  staged_resting (R := fun _ => _) fun _ _ hidle =>
    memcpyH2d_rests _ _ _ hX hidle hdistinct (hstrict _) fun _ _ => trivial

theorem fillRegion_resting {region : DeviceRegion} {value : UInt8} :
    Triple (Resting clean X handles pinned) (fillRegion region value) (Rest clean X handles pinned) :=
  staged_resting (R := fun _ => _) fun _ _ hidle =>
    fillRegion_rests hX hidle hdistinct (hstrict _) fun _ _ => trivial

theorem memcpyD2h_resting {src len : ℕ} {opts : DmaOptions} :
    Triple (Resting clean X handles pinned) (memcpyD2hOpts src len opts) (Rest clean X handles pinned) :=
  staged_resting fun _ _ hidle => memcpyD2h_rests (M := fun _ => 0) hX
    hidle hdistinct (hstrict _) shows_none fun _ _ => trivial

theorem upload_resting {elemSize n : ℕ} {data : List UInt8} :
    Triple (Resting clean X handles pinned) (upload elemSize n data) (Rest clean X handles pinned) := by
  refine resting_spec fun acc fr hidle => .bind (allocArray_rests.conseq (fun _ h => h)
    (fun _ _ h => h) (fun _ _ h => h.paused hidle) fun _ h => h) fun region =>
      .and_pre fun hallots => ?_
  have hidle := hidle.alike hallots.alike
  exact .bind ((memcpyH2d_rests _ _ _ hX hidle hdistinct (hstrict _) fun _ _ => trivial).conseq
    (fun _ h => h) (fun _ _ h => h.paused) (fun _ _ h => h.paused) fun _ h => h) fun _ =>
      .pure fun _ h => h

theorem loadKernel_resting {image : List UInt8} (hlen : image.length < 2 ^ 63) :
    Triple (Resting clean X handles pinned) (loadKernel image) (Rest clean X handles pinned) :=
  resting_spec fun acc fr hidle => (loadKernel_rests hX hidle hdistinct (hstrict _)
    (hlen.trans (by decide)) fun _ _ => trivial).conseq (fun _ h => h) (fun _ _ h => by
      obtain ⟨elf, own, fr', -, -, -, -, hidle, hs⟩ := h
      exact (Rests.mono hs fun _ hw => hw.1).paused hidle)
    (fun _ _ h => h.paused) fun _ h => h

omit hstrict

theorem resetShires_resting {shireMask : ℕ} :
    Triple (Resting clean X handles pinned) (resetShires shireMask) (Rest clean X handles pinned) :=
  resting_spec fun _ _ hidle => (resetShires_rests hX hidle hdistinct fun _ _ => trivial).conseq
    (fun _ h => h) (fun _ _ ⟨_, _, h⟩ => h.paused hidle)
    (fun _ _ ⟨_, _, h⟩ => h.paused hidle) fun _ h => h

/-- The handles after a launch. -/
theorem launchAsync_resting (hargs : ¬strict .arguments) {kernel : LoadedKernel} {opts : LaunchOptions} :
    Triple (Resting clean X handles pinned) (launchAsync kernel opts)
      (Ends (fun launch s => Paused clean X
          (.new launch opts (s.world.accepted.length - 1) :: handles) pinned s)
        fun _ => Paused clean X handles pinned) := by
  refine resting_spec fun acc fr hidle => (launchAsync_rests
    (E := fun _ => .any strict) (X := fun _ => X)
    (P := X) (N := 0) hidle hdistinct
    ⟨fun _ => hX, fun _ _ hw _ => hw, fun _ _ _ _ _ _ hw _ _ => ⟨hw, fun _ _ h => (hargs h).elim⟩,
      fun _ _ _ _ _ _ _ _ _ => trivial, fun _ _ => trivial, fun _ _ _ _ _ _ => trivial⟩).conseq
    (fun _ h => ⟨h, Nat.zero_le _⟩) (fun launch s hs => ?_) (fun _ s hs => ?_) fun _ h => h
  · obtain ⟨o, host, slot, pointerToArgs, fr₁, fr', own, a, -, -, -, hidle, -, hs⟩ := hs
    refine Resting.paused ⟨acc ++ own ++ [a], fr', hidle, ?_⟩
    rwa [show s.world.accepted = acc ++ own ++ [a] from hs.world.2,
      show (acc ++ own ++ [a]).length - 1 = (acc ++ own).length by simp]
  · obtain ⟨o, host, fr₁, fr', own, forgotten, -, -, hidle, hs⟩ := hs
    exact hs.paused hidle

omit hX hdistinct

/-- Of the handles only the launches matter, and where their commands are. -/
theorem Rests.held {s : Sys} (h : Rests clean X acc fr handles pinned s)
    (hperm : (owed handles).Perm (owed handles'))
    (hsub : ∀ h' ∈ handles', ∃ h ∈ handles, h.launch = h'.launch ∧ h.cmd = h'.cmd) :
    Rests clean X acc fr handles' pinned s := by
  refine Ready.mono (Ready.perm h ((hperm.append_left _).append_left _)) fun w hw =>
    ⟨hw.1.mono fun hbase => ⟨hbase.extra, fun h' hh' => ?_, hbase.racked, hbase.slotted⟩, hw.2⟩
  obtain ⟨h, hh, hlaunch, hcmd⟩ := hsub h' hh'
  have hfollows := hbase.follows h hh
  rwa [Handle.first, Handle.tags, hlaunch, hcmd] at hfollows

theorem Resting.perm {s : Sys} (h : Resting clean X handles pinned s) (hperm : handles.Perm handles') :
    Resting clean X handles' pinned s := by
  obtain ⟨acc, fr, hidle, hs⟩ := h
  exact ⟨acc, fr, hidle, hs.held (hperm.flatMap_right _) fun h' hh' =>
    ⟨h', hperm.mem_iff.2 hh', rfl, rfl⟩⟩

include hX

theorem waitLaunch_resting (pinned : List DmaHostBuffer) {handle : Handle} {rest : List Handle}
    (hperm : handles.Perm (handle :: rest)) :
    Triple (Resting clean X handles pinned) (waitLaunch handle.launch) (Rest clean X rest pinned) := by
  refine Triple.pre (P := Resting clean X (handle :: rest) pinned) (resting_spec fun acc fr hidle =>
    (waitLaunch_rests (k := 0) hX hidle rfl).conseq (fun _ h => h)
      (fun _ s hs => (Rests.mono hs fun _ hw => hw.1).paused hidle)
      (fun _ s ⟨forgotten, hidle, hs⟩ => hs.paused hidle) fun _ h => h) fun s hs => hs.perm hperm

end

/-! ## Sessions -/

namespace Session

/-- The host buffers that the client has pinned. -/
def hosts (s : Session) : List DmaHostBuffer := s.pinned.filterMap (·.host)

/-- The launches that were not waited for. -/
def unwaited (s : Session) : List Handle := s.handles.filter (·.state ≠ .waited)

/-- The record of the queues is in order, and so is the driver unless a call is stuck. -/
structure Good (clean : Prop) (X : World → Prop) (s : Session) : Prop where
  inOrder : InOrder s.sys
  paused : s.stopped = none → Distinct s.hosts ∧ Paused clean X s.unwaited s.hosts s.sys

theorem Good.initial {setup : Setup} (hbears : setup.machine.bearsTag = true)
    (hX : X (.init setup.machine setup.mem)) : Good clean X (init setup) := by
  have htags := TagInv.init setup.machine setup.mem hbears
  refine ⟨TagInv.inOrder (s := (Session.init setup).sys) htags, fun _ => ⟨⟨List.nodup_nil, by
    simp [hosts, Session.init]⟩, [], (Session.init setup).sys.frame, ⟨⟨⟨?_, ?_, ?_⟩, ?_, ?_,
      two_le_alignStagingCapacity ..⟩, rfl, ?_⟩, htags, ⟨⟨⟨hX, ?_, ⟨?_, ?_⟩, ?_⟩, ?_, ?_, ?_, ?_,
        ?_⟩, rfl⟩, rfl⟩⟩
  all_goals simp [Session.init, unwaited, hosts, World.Follows, Slotted, World.Mapped, Sys.init, Sys.frame,
    World.init, Device.init]

/-- A call whose every end is good. -/
theorem Good.perform {α : Type} {m : M α} {keep : Session → α → Session × Reply} {call : Call}
    {s : Session} {R : α → Sys → Prop} {F : Error → Sys → Prop}
    (h : Triple (· = s.sys) m (Ends R F))
    (hok : ∀ a sys, R a sys → ∀ replies, Good clean X { (keep { s with sys := sys } a).1 with
      replies := replies })
    (herr : ∀ e sys, F e sys → ∀ replies, Good clean X { s with sys := sys, replies := replies }) :
    Good clean X (s.perform call m keep) := by
  have h := h s.sys rfl
  unfold Session.perform
  split <;> rename_i heq <;> rw [heq] at h
  · exact hok _ _ h _
  · exact herr _ _ h _
  · exact ⟨h, by simp⟩

theorem Good.of_paused {s : Session} (hdistinct : Distinct s.hosts)
    (h : Paused clean X s.unwaited s.hosts s.sys) : Good clean X s :=
  ⟨Resting.inOrder h, fun _ => ⟨hdistinct, h⟩⟩

theorem Good.weaken {s : Session} (h : Good clean X s)
    (hclean : clean' → s.sys.Clean → clean) : Good clean' X s :=
  ⟨h.inOrder, fun hstop => ⟨(h.paused hstop).1,
    (h.paused hstop).2.weaken fun hc => ⟨hclean hc.1 hc.2, hc.2⟩⟩⟩

/-- A call that leaves the client with what it had, whatever it returns. -/
theorem Good.plain {α : Type} {m : M α} {reply : α → Reply} {call : Call} {s : Session}
    (hdistinct : Distinct s.hosts) (hs : Resting clean X s.unwaited s.hosts s.sys)
    (hm : Triple (Resting clean X s.unwaited s.hosts) m (Rest clean X s.unwaited s.hosts)) :
    Good clean X (s.perform call m fun s a => (s, reply a)) :=
  .perform (hm.pre fun _ heq => heq ▸ hs) (fun _ _ hsys _ => .of_paused hdistinct hsys)
    fun _ _ hsys _ => .of_paused hdistinct hsys

/-! ## Handles -/

/-- A kept element can be taken out. -/
theorem filter_perm_of_get {α : Type} {l : List α} {p : α → Bool} {k : ℕ} {x y : α}
    (hk : l[k]? = some x) (hx : p x = true) (hy : p y = false) :
    (l.filter p).Perm (x :: (l.set k y).filter p) := by
  obtain ⟨hlt, rfl⟩ := List.getElem?_eq_some_iff.1 hk
  have hl : l = l.take k ++ l[k] :: l.drop (k + 1) := by simp
  rw [List.set_eq_take_append_cons_drop, if_pos hlt]
  conv_lhs => rw [hl]
  simp only [List.filter_append, List.filter_cons_of_pos hx, List.filter_cons_of_neg (p := p)
    (a := y) (by simp [hy])]
  exact List.perm_middle

theorem unwaited_waited {s s' : Session} {k : ℕ} {handle : Handle}
    (h : s.take k .waited = some (handle, s')) : s.unwaited.Perm (handle :: s'.unwaited) := by
  obtain ⟨hk, hheld, rfl⟩ := take_eq_some h
  exact filter_perm_of_get hk (by simp [hheld]) (by simp)

/-- A dropped handle still counts as one not waited for. -/
theorem Resting.dropped {s s' : Session} {k : ℕ} {handle : Handle} {sys : Sys}
    (h : s.take k .dropped = some (handle, s')) (hs : Resting clean X s.unwaited pinned sys) :
    Resting clean X s'.unwaited pinned sys := by
  obtain ⟨hk, hheld, rfl⟩ := take_eq_some h
  have hperm : s.unwaited.Perm (handle :: (s.handles.set k { handle with state := .waited }).filter
    (·.state ≠ .waited)) := filter_perm_of_get hk (by simp [hheld]) (by simp)
  have hlt := (List.getElem?_eq_some_iff.1 hk).1
  have hperm' : (({ handle with state := .dropped } : Handle) :: (s.handles.set k
      { handle with state := .waited }).filter (·.state ≠ .waited)).Perm
      ((s.handles.set k { handle with state := .dropped }).filter (·.state ≠ .waited)) := by
    have := filter_perm_of_get (l := s.handles.set k { handle with state := .dropped })
      (p := fun h => h.state ≠ .waited) (x := { handle with state := .dropped })
      (y := { handle with state := .waited }) (List.getElem?_set_self hlt) (by simp) (by simp)
    rw [List.set_set] at this
    exact this.symm
  obtain ⟨acc, fr, hidle, hs⟩ := hs.perm hperm
  have hheld : Resting clean X ({ handle with state := .dropped } :: (s.handles.set k
      { handle with state := .waited }).filter (·.state ≠ .waited)) pinned sys := by
    refine ⟨acc, fr, hidle, hs.held (.refl _) fun h' hh' => ?_⟩
    rcases List.mem_cons.1 hh' with rfl | hh'
    · exact ⟨handle, List.mem_cons_self, rfl, rfl⟩
    · exact ⟨h', List.mem_cons_of_mem _ hh', rfl, rfl⟩
  exact hheld.perm hperm'

/-! ## Pinned buffers -/

theorem mem_hosts {s : Session} {k : ℕ} {buffer : PinnedBuffer} {host : DmaHostBuffer}
    (hk : s.pinned[k]? = some buffer) (hhost : buffer.host = some host) : host ∈ s.hosts :=
  List.mem_filterMap.2 ⟨buffer, List.mem_of_getElem? hk, hhost⟩

/-- The hosts left when one buffer is taken away. -/
theorem hosts_set (buffer' : PinnedBuffer) {s : Session} {k : ℕ} {buffer : PinnedBuffer}
    (hk : s.pinned[k]? = some buffer) (hnone : buffer'.host = none) (hdistinct : Distinct s.hosts) :
    (hosts { s with pinned := s.pinned.set k buffer' }).Sublist s.hosts ∧
      ∀ host, buffer.host = some host → host ∉ hosts { s with pinned := s.pinned.set k buffer' } := by
  obtain ⟨hlt, rfl⟩ := List.getElem?_eq_some_iff.1 hk
  have hset : hosts { s with pinned := s.pinned.set k buffer' } =
      (s.pinned.take k).filterMap (·.host) ++ (s.pinned.drop (k + 1)).filterMap (·.host) := by
    simp only [hosts]
    rw [List.set_eq_take_append_cons_drop, if_pos hlt, List.filterMap_append,
      List.filterMap_cons_none hnone]
  have hall : s.hosts = (s.pinned.take k).filterMap (·.host) ++
      (s.pinned[k] :: s.pinned.drop (k + 1)).filterMap (·.host) := by
    rw [← List.filterMap_append, hosts]
    simp
  rw [hset]
  refine ⟨?_, fun host hhost hin => ?_⟩
  · rw [hall]
    exact (List.Sublist.refl _).append (List.Sublist.filterMap _ (List.sublist_cons_self ..))
  · have hnodup := hdistinct.nodup.of_map
    rw [hall, List.filterMap_cons_some hhost] at hnodup
    exact (List.nodup_cons.1 (List.perm_middle.nodup hnodup)).1 hin

theorem Good.transferPinned {s : Session} {call : Call} {k : ℕ}
    {m : PinnedBuffer → M (PinnedBuffer × Except Error Unit)} {reply : Session → PinnedBuffer → Reply}
    (h : Good clean X s) (hdistinct : Distinct s.hosts)
    (hs : Resting clean X s.unwaited s.hosts s.sys)
    (hm : ∀ buffer acc fr m₀, Idle fr → (∀ host, buffer.host = some host → host ∈ s.hosts) →
      ∃ R carries, Triple (fun s' => Rests clean X acc fr s.unwaited s.hosts s' ∧ s'.world.host = m₀)
        (m buffer)
        (Ends (PinnedEnd clean R carries X acc fr s.unwaited s.hosts buffer) fun _ _ => False)) :
    Good clean X (s.transferPinned call k m reply) := by
  obtain ⟨acc, fr, hidle, hs⟩ := hs
  unfold Session.transferPinned
  split
  · rename_i buffer hk
    obtain ⟨R, carries, hm⟩ := hm buffer acc fr s.sys.world.host hidle fun host => mem_hosts hk
    have hself : s.pinned.set k buffer = s.pinned := by
      obtain ⟨hlt, rfl⟩ := List.getElem?_eq_some_iff.1 hk
      exact List.set_getElem_self hlt
    refine .perform (hm.pre fun s' (heq : s' = s.sys) => by
      subst heq
      exact ⟨hs, rfl⟩) (fun r sys hsys replies => ?_)
      fun _ _ h => h.elim
    have hkept : Paused clean X s.unwaited s.hosts sys →
        Good clean X { s with sys := sys, pinned := s.pinned.set k buffer, replies := replies } := by
      intro hs'
      rw [hself]
      exact .of_paused hdistinct hs'
    cases hsys with
    | @skipped buffer' result _ hskip hs' =>
      obtain ⟨rfl, -⟩ := hskip
      cases result <;> exact hkept (hs'.paused hidle)
    | done hhost hown hs' =>
      exact hkept ((Rests.mono hs' fun _ hw => hw.1.1).paused hidle)
    | failed hgave =>
      obtain ⟨own, fr', -, hkeep, -, hidle', hs'⟩ := hgave
      obtain rfl | rfl := hkeep
      · exact hkept ⟨_, fr', hidle', hs' _ (List.Subset.refl _) fun hnone host hhost => by
          simp [hnone] at hhost⟩
      · obtain ⟨hsub, hnot⟩ := hosts_set ⟨none, 0, buffer.device⟩ hk rfl hdistinct
        exact .of_paused (hdistinct.sublist hsub) ⟨_, fr', hidle',
          hs' _ hsub.subset fun _ host hhost => hnot host hhost⟩
  · exact h

/-! ## Runs -/

theorem Good.step (hX : Stable (.any strict) X) (hargs : ¬strict .arguments) {s : Session}
    (h : Good clean X s) (hstrict : ∀ p, strict p → clean ∧ s.sys.Clean) (call : Call) :
    Good (clean ∧ s.sys.Clean) X (s.step call) := by
  have h' : Good (clean ∧ s.sys.Clean) X s := h.weaken fun hclean _ => hclean.1
  unfold Session.step
  split
  · exact h'
  rename_i hstop
  have hstop : s.stopped = none := by simpa using hstop
  obtain ⟨hdistinct, hs⟩ := h.paused hstop
  unfold Paused at hs
  generalize (clean ∧ s.sys.Clean) = clean' at h' hs hstrict ⊢
  clear h
  have h := h'
  cases call with
  | alloc size => exact Good.plain hdistinct hs (allotted_resting fun _ _ => alloc_allotted)
  | allocArray elemSize n => exact Good.plain hdistinct hs (allotted_resting fun _ _ => allocArray_allotted)
  | upload elemSize n data => exact Good.plain hdistinct hs (upload_resting hX hdistinct hstrict)
  | allocPadded elemSize n => exact Good.plain hdistinct hs (allotted_resting fun _ _ => allocPadded_allotted)
  | allocTensorMatrix rows cols =>
    exact Good.plain hdistinct hs
      (allotted_resting fun _ _ => allocTensorMatrix_allotted)
  | allocMark =>
    obtain ⟨acc, fr, hidle, hs⟩ := hs
    refine .perform (F := fun _ _ => False) (allocMark_rests.pre fun _ heq => heq ▸ hs)
      (fun mark sys hsys _ => .of_paused hdistinct (hsys.2.paused ?_)) fun _ _ h => h.elim
    have halike : fr.Alike { fr with heap := .marked :: fr.heap } [] :=
      ⟨rfl, rfl, rfl, rfl, fun _ h => h, rfl, by simp⟩
    exact hidle.alike halike
  | resetTo k =>
    dsimp only
    split
    · refine Good.plain hdistinct hs (resting_spec fun acc fr hidle => (resetTo_rests hidle).conseq
        (fun _ h => h) (fun _ _ ⟨_, _, hidle', hs'⟩ => hs'.paused hidle')
        (fun _ _ h => h) fun _ h => h)
    · exact h
  | loadKernel image slice => exact Good.plain hdistinct hs (loadKernel_resting hX hdistinct hstrict slice)
  | launchAsync kernel opts =>
    refine .perform ((launchAsync_resting hX hdistinct hargs).pre fun _ heq => heq ▸ hs)
      (fun launch sys hsys _ => .of_paused hdistinct ?_) fun e sys hsys _ => .of_paused hdistinct hsys
    refine hsys.perm ?_
    simp only [unwaited, List.filter_append]
    exact (List.perm_append_singleton _ _).symm
  | waitLaunch k =>
    dsimp only
    split
    · rename_i handle s' htake
      obtain ⟨-, -, rfl⟩ := take_eq_some htake
      exact .perform ((waitLaunch_resting hX s.hosts (unwaited_waited htake)).pre
        fun _ heq => heq ▸ hs)
        (fun a sys hsys _ => .of_paused hdistinct hsys) fun e sys hsys _ => .of_paused hdistinct hsys
    · exact h
  | dropLaunch k =>
    dsimp only
    split
    · rename_i handle s' htake
      have hdropped := Resting.dropped htake hs
      obtain ⟨-, -, rfl⟩ := take_eq_some htake
      exact .of_paused hdistinct hdropped.paused
    · exact h
  | memcpyH2d src dst opts => exact Good.plain hdistinct hs (memcpyH2d_resting hX hdistinct hstrict)
  | memcpyD2h src len opts => exact Good.plain hdistinct hs (memcpyD2h_resting hX hdistinct hstrict)
  | fill region value => exact Good.plain hdistinct hs (fillRegion_resting hX hdistinct hstrict)
  | allocPinned len =>
    have halloc : Triple (Resting clean' X s.unwaited s.hosts) (allocPinned len)
        (Ends (fun buffer sys => ∃ host, buffer.host = some host ∧ Distinct (s.hosts ++ [host]) ∧
            Paused clean' X s.unwaited (s.hosts ++ [host]) sys)
          fun _ => Paused clean' X s.unwaited s.hosts) :=
      resting_spec fun acc fr hidle => (allocPinned_rests hX hdistinct).conseq (fun _ h => h)
        (fun buffer sys ⟨host, hhost, hd, hs'⟩ => ⟨host, hhost, hd, hs'.paused hidle⟩)
        (fun _ _ h => h.paused hidle) fun _ h => h
    refine .perform (halloc.pre fun _ heq => heq ▸ hs) (fun buffer sys hsys _ => ?_)
      fun e sys hsys _ => .of_paused hdistinct hsys
    obtain ⟨host, hhost, hd, hs'⟩ := hsys
    have hhosts : ∀ t : Session, t.pinned = s.pinned ++ [buffer] → t.hosts = s.hosts ++ [host] :=
      fun t ht => by simp [hosts, ht, hhost]
    refine .of_paused ?_ ?_
    · rw [hhosts _ rfl]
      exact hd
    · rw [hhosts _ rfl]
      exact hs'
  | writePinned k data =>
    dsimp only
    split
    · rename_i buffer hk
      exact Good.plain hdistinct hs (resting_spec fun acc fr hidle => (writePinned_rests (F := fun _ =>
        Paused clean' X s.unwaited s.hosts) hX hdistinct (hstrict _) fun host => mem_hosts hk).conseq
        (fun _ h => h) (fun _ _ h => h.paused hidle) (fun _ _ h => h) fun _ h => h)
    · exact h
  | memcpyH2dPinned k dst opts =>
    exact h.transferPinned hdistinct hs fun buffer acc fr m₀ hidle hmem => ⟨_, _,
      memcpyH2dPinned_rests hX hidle hdistinct hmem (hstrict _) fun _ _ _ _ _ => trivial⟩
  | memcpyD2hPinned src k opts =>
    exact h.transferPinned hdistinct hs fun buffer acc fr m₀ hidle hmem => ⟨_, _,
      (memcpyD2hPinned_rests (M := fun _ => 0) hX hidle hdistinct hmem (hstrict _) shows_none
        fun _ _ => trivial).pre fun _ h => h.1⟩
  | dropPinned k =>
    dsimp only
    split
    · rename_i buffer hk
      obtain ⟨hsub, -⟩ := hosts_set { buffer with host := none, len := 0 } hk rfl hdistinct
      refine .perform (F := fun _ _ => False) (R := fun _ => Paused clean' X s.unwaited
        (hosts { s with pinned := s.pinned.set k { buffer with host := none, len := 0 } }))
        ((resting_spec fun acc fr hidle => (dropPinned_rests hidle hdistinct hsub.subset
          fun host hh => mem_hosts hk (by simpa using hh)).conseq (fun _ h => h)
          (fun _ _ ⟨_, hidle', _, _, hs'⟩ => hs'.paused hidle') (fun _ _ h => h)
          fun _ h => h).pre fun _ heq => heq ▸ hs)
        (fun a sys hsys _ => .of_paused (hdistinct.sublist hsub) hsys) fun _ _ h => h.elim
    · exact h
  | resetShires shireMask => exact Good.plain hdistinct hs (resetShires_resting hX hdistinct)
  | setStagingCapacity bytes =>
    exact Good.plain hdistinct hs (resting_spec fun acc fr hidle => (setStagingCapacity_rests hidle).conseq
      (fun _ h => h) (fun _ _ ⟨_, hidle', _, _, hs'⟩ => hs'.paused hidle')
      (fun _ _ h => h) fun _ h => h)
  | setDefaultLaunchTimeout timeout =>
    refine Good.plain hdistinct hs (resting_spec fun acc fr hidle => setDefaultTimeout_rests.conseq
      (fun _ h => h) (fun _ _ hs' => hs'.paused ?_)
      (fun _ _ h => h) fun _ h => h)
    have halike : fr.Alike { fr with defaultTimeout := timeout } [] :=
      ⟨rfl, rfl, rfl, rfl, fun _ h => h, rfl, by simp⟩
    exact hidle.alike halike
  | idle =>
    exact Good.plain hdistinct hs (resting_spec fun acc fr hidle => (tick_rests hX).conseq
      (fun _ h => h) (fun _ _ hs' => hs'.paused hidle) (fun _ _ h => h) fun _ h => h)

/-- A run that is not clean stays so. -/
theorem heapSteady_unclean :
    HeapSteady (fun _ => True) (fun _ => True) (fun _ => True)
      fun _ s => s.cut ≠ [] ∧ s.Exposed := by
  have hdeaf : Deaf (fun _ => True) (fun _ => True) fun s : Sys => s.cut ≠ [] ∧ s.Exposed :=
    { waiting := trivial
      panics := fun _ _ => trivial
      act := fun s _ ds h => ⟨h.1, by
        rw [Sys.Exposed, World.steps_accepted]
        exact h.2⟩
      map := fun _ _ _ _ h => h
      fill := fun _ _ _ h => h
      unmapped := fun _ _ h => h
      staging := fun _ _ _ h => h
      taken := fun _ _ _ h => h
      tags := fun _ _ _ _ _ h => h
      log := fun _ _ h => ⟨h.1, h.2.mono List.prefix_rfl (List.suffix_cons ..)⟩
      cut := fun _ _ h => ⟨fun hnil => h.1 (List.append_eq_nil_iff.1 hnil).2, h.2⟩
      pop := fun _ _ h => h
      offer := fun _ _ _ h => h
      accept := fun _ _ _ _ _ h => ⟨h.1, h.2.mono (List.prefix_append ..) List.suffix_rfl⟩
      peak := fun _ _ _ h => h }
  exact
    { deaf := fun _ => hdeaf
      pending := fun _ _ _ h => h
      push := fun _ _ _ _ _ _ =>
        hdeaf.pushDmaStaged (fun _ _ h => h) (fun _ _ h => h) trivial (fun _ => trivial) _ _ _ _ _
      slots := fun _ _ _ _ _ h => h
      addr := fun _ _ _ _ _ => trivial
      zero := trivial
      timeout := fun _ _ _ h => h
      allocated := fun _ _ _ _ h _ => h
      slot := fun _ _ _ _ h _ => h
      marked := fun _ _ h => h
      reset := fun _ _ _ _ _ h => h
      loaded := fun _ _ _ _ _ _ h _ => h }

theorem Good.clean_of_run {s : Session} (h : Good clean X s) (calls : List Call)
    (hclean : (s.run calls).sys.Clean) : s.sys.Clean := by
  intro hcut hexposed
  have hpending : s.stopped = none → s.sys.pending = [] := fun hstop => by
    obtain ⟨-, acc, fr, hidle, hs⟩ := h.paused hstop
    exact (congrArg Frame.pending hs.frame).trans hidle.pending
  have hrun : Holds (fun _ => True) (fun _ s => s.cut ≠ [] ∧ s.Exposed) (s.run calls) :=
    heapSteady_unclean.steadfast.run ⟨⟨hcut, hexposed⟩, hpending, fun _ _ => trivial⟩
      fun call _ => call.builds_any _
  exact hclean hrun.sys.1 hrun.sys.2

theorem Good.run (strict : Purpose → Prop) (hX : Stable (.any strict) X)
    (hargs : ¬strict .arguments) (calls : List Call) {s : Session} (h : Good True X s)
    (hstrict : ∀ p, strict p → (s.run calls).sys.Clean) : Good True X (s.run calls) := by
  induction calls generalizing s with
  | nil => exact h
  | cons call calls ih =>
    have hstep := h.step hX hargs (fun p hp => ⟨trivial, h.clean_of_run _ (hstrict p hp)⟩) call
    have hback : (s.step call).sys.Clean → s.sys.Clean := h.clean_of_run [call]
    exact ih (hstep.weaken fun _ hclean => ⟨trivial, hback hclean⟩) hstrict

/-- After a clean run, the buffers are free of earlier commands. -/
theorem Good.resting {s : Session} (h : Good True X s) (hstop : s.stopped = none)
    (hclean : s.sys.Clean) : Distinct s.hosts ∧ Resting True X s.unwaited s.hosts s.sys :=
  (h.paused hstop).imp_right fun hs => hs.weaken fun _ => ⟨trivial, hclean⟩

theorem good_run {setup : Setup} (hbears : setup.machine.bearsTag = true) (calls : List Call) :
    Good True (fun _ => True) ((init setup).run calls) :=
  (Good.initial hbears trivial).run (fun _ => False) (fun _ _ _ _ _ => trivial) id calls
    fun _ h => h.elim

end Session

end EtSoc

import EtSoc.Verification.Dma.Nodes
import EtSoc.Verification.Session.Deaf
import EtSoc.Verification.Wire.Decoding
import EtSoc.Verification.World.Moves

/-! # The commands of one staged transfer

How many nodes a command may have, and what pushing a chunk leaves behind. -/

namespace EtSoc

open Function Program

/-! ## The limits -/

/-- Largest number of nodes of a command, by the limits of the device, of the size field and
of a queue. -/
def nodeLimit (dram : DramInfo) (sqMax : ℕ) : ℕ :=
  max (min (min dram.dmaMaxElemCount ((65535 - cmnHeaderSize) / dmaNodeSize))
    ((sqMax - cmnHeaderSize) / dmaNodeSize)) 1

theorem nodeLimit_pos (dram : DramInfo) (sqMax : ℕ) : 1 ≤ nodeLimit dram sqMax :=
  Nat.le_max_right ..

theorem nodeLimit_le_count (dram : DramInfo) (sqMax : ℕ) :
    nodeLimit dram sqMax ≤ max 1 dram.dmaMaxElemCount := by
  unfold nodeLimit
  omega

theorem size_lt_of_le_nodeLimit {dram : DramInfo} {sqMax n : ℕ} (h : n ≤ nodeLimit dram sqMax) :
    cmnHeaderSize + dmaNodeSize * n < 65536 := by
  unfold nodeLimit cmnHeaderSize dmaNodeSize at *
  omega

/-- A queue that takes a command of one node takes all of them. -/
theorem size_le_of_le_nodeLimit {dram : DramInfo} {sqMax n : ℕ} (h : n ≤ nodeLimit dram sqMax)
    (hsq : 40 ≤ sqMax) : cmnHeaderSize + dmaNodeSize * n ≤ sqMax := by
  unfold nodeLimit cmnHeaderSize dmaNodeSize at *
  omega

/-- The limit the host works with, once computed. -/
def Sys.nodeLimit (s : Sys) : ℕ :=
  s.dev.maxListNodes.getD (EtSoc.nodeLimit s.dev.dram s.world.machine.sqMaxMsgSize)

/-- The nodes of a command obey the limits. -/
structure ListFits (maxElem limit : ℕ) (nodes : List DmaNode) : Prop where
  nonempty : 1 ≤ nodes.length
  count : 1 ≤ limit → nodes.length ≤ limit
  sizes : ∀ n ∈ nodes, 1 ≤ n.size ∧ n.size ≤ maxElem

/-- What a queue is asked once. -/
theorem sqMaxMsgSize_triple (machine : Machine) : Triple (fun s => s.world.machine = machine)
    sqMaxMsgSize ⟨fun msg _ => msg = machine.sqMaxMsgSize, fun _ _ => True, fun _ _ => True⟩ := by
  refine .bind (R := fun _ s => s.world.machine = machine) ?_ fun answer => ?_
  · rintro s rfl
    unfold consult
    split
    · trivial
    · exact s.world.steps_machine _
  · cases answer with
    | fail e => exact .throw fun _ _ => trivial
    | _ => exact fun s hs => congrArg Machine.sqMaxMsgSize hs

/-! ## One command -/

/-- What a push may change: the commands taken, and the tags pending. -/
def Taken (acc : List Accepted) (tags : List Tag) (s : Sys) : Prop :=
  s.world.accepted = acc ∧ s.pending = tags

theorem deaf_taken (acc : List Accepted) (tags : List Tag) :
    Deaf (fun _ => True) (fun _ => False) (Taken acc tags) where
  waiting := trivial
  panics := fun _ _ => trivial
  act := fun s _ ds h => ⟨(s.world.steps_accepted ds).trans h.1, h.2⟩
  map := fun _ _ _ _ h => h
  fill := fun _ _ _ h => h
  unmapped := fun _ _ h => h
  staging := fun _ _ _ h => h
  taken := fun _ _ _ h => h
  tags := fun _ _ _ _ _ h => h
  log := fun _ _ h => h
  cut := fun _ _ h => h
  pop := fun _ _ h => h
  offer := fun _ _ _ h => h
  accept := fun _ _ _ _ h _ => h.elim
  peak := fun _ _ _ h => h

/-- A step of a push that gives nothing to the queue. -/
theorem keeps_taken {α : Type} {m : M α} {acc : List Accepted} {tags : List Tag}
    (h : Triple (Taken acc tags) m (Always (fun _ => True) (Taken acc tags))) :
    Triple (Taken acc tags) m ⟨fun _ => Taken acc tags, fun _ => Taken acc tags, fun _ _ => True⟩ :=
  h.conseq (fun _ h => h) (fun _ _ h => h) (fun _ _ h => h) fun _ _ => trivial

variable {acc : List Accepted} {tags : List Tag} {sqIndex : UInt16} {descFlags : UInt8}
  {cmd : Command} {tag : Tag}

/-- How a push ends: the queue has taken the command, or nothing has changed. -/
def Pushes (acc : List Accepted) (tags : List Tag) (sqIndex : UInt16) (descFlags : UInt8)
    (cmd : Command) : Post Sys Error Unit where
  ok _ s := ∃ host, Taken (acc ++ [⟨sqIndex, descFlags, cmd, host⟩]) tags s
  err _ := Taken acc tags
  stop _ _ := True

theorem pushSq_taken : Triple (Taken acc tags) (pushSq sqIndex cmd descFlags)
    ⟨fun taken s => if taken then ∃ host, Taken (acc ++ [⟨sqIndex, descFlags, cmd, host⟩]) tags s
      else Taken acc tags s, fun _ => Taken acc tags, fun _ _ => True⟩ := by
  refine .modify_bind (R := Taken acc tags) (fun s hs => hs)
    (.bind (keeps_taken (deaf_taken acc tags).consult) fun answer =>
      .bind (keeps_taken (Remote.decision answer)) fun taken => ?_)
  cases taken with
  | false => exact .pure fun _ h => h
  | true =>
    refine .read_bind fun c s hs => ?_
    obtain ⟨⟨hacc, htags⟩, -⟩ := hs
    refine ⟨s.world.host, ?_, htags⟩
    rw [← hacc]
    rfl

theorem pushLoop_taken (limit : Duration) (n : ℕ) : Triple (Taken acc tags)
    (pushLoop sqIndex cmd descFlags limit n) (Pushes acc tags sqIndex descFlags cmd) := by
  have hdeaf := deaf_taken acc tags
  induction n with
  | zero => exact .block fun _ _ => trivial
  | succ n ih =>
    refine .bind pushSq_taken fun taken => ?_
    cases taken with
    | true => exact .pure fun _ h => h
    | false =>
      exact .bind (keeps_taken hdeaf.expired) fun late => .ite (fun _ => .throw fun _ h => h)
        fun _ => .bind (keeps_taken hdeaf.waitReady) fun _ => ih

theorem pushCmd_taken : Triple (Taken acc tags) (pushCmd sqIndex cmd descFlags tag)
    (Pushes acc tags sqIndex descFlags cmd) := by
  refine .attempt_bind (.read_bind fun dev => .read_bind fun n =>
    (pushLoop_taken dev.defaultTimeout n).pre fun _ h => h.1.1) (fun _ => .pure fun _ h => h)
      fun e => .bind (keeps_taken ((deaf_taken acc tags).release tag)) fun _ => .throw fun _ h => h

/-- A list command is taken and its tag pending, or neither. -/
theorem pushList_taken {direction : Direction} {nodes : List DmaNode} :
    Triple (Taken acc tags) (pushList direction sqIndex nodes)
      ⟨fun _ s => ∃ a, ListCommand direction sqIndex nodes a ∧
          Taken (acc ++ [a]) (tags ++ [a.cmd.tagId]) s,
        fun _ => Taken acc tags, fun _ _ => True⟩ := by
  refine .bind (keeps_taken (deaf_taken acc tags).nextTag) fun tag => ?_
  cases hbuild : buildDmaList direction tag CmdFlags.barrier nodes with
  | none => exact .bind (R := fun _ _ => False) (.panic fun _ _ => trivial) fun _ _ h => h.elim
  | some cmd =>
    refine .bind (R := fun c s => c = cmd ∧ Taken acc tags s) (.pure fun _ h => ⟨rfl, h⟩) fun c =>
      .and_pre fun hc => .bind pushCmd_taken fun _ => .exists_pre fun host => .read_bind fun own =>
        .modify fun s hs => ?_
    obtain ⟨⟨hacc, htags⟩, rfl⟩ := hs
    obtain ⟨htag, hlist⟩ := buildDmaList_eq_some hbuild sqIndex host
    subst hc
    refine ⟨_, hlist, hacc, ?_⟩
    rw [htags, htag]

/-! ## One chunk -/

/-- From `s` on, the queue has taken commands for the first `off` bytes of a buffer, and their
tags are pending. -/
structure Chunk (s : Sys) (direction : Direction) (sqIndex : UInt16) (b : BufId) (addr off : ℕ)
    (own : List Accepted) (t : Sys) : Prop where
  stages : Stages direction sqIndex b addr own off
  fits : ∀ a ∈ own, ListFits (max s.dev.dram.dmaMaxElemSize 1) s.nodeLimit a.cmd.nodes
  taken : Taken (s.world.accepted ++ own) (s.pending ++ own.map (·.cmd.tagId)) t

theorem maxListNodes_taken (s₀ : Sys) : Triple (fun s => s = s₀) maxListNodes
    ⟨fun n s => n = s₀.nodeLimit ∧ Taken s₀.world.accepted s₀.pending s,
      fun _ => Taken s₀.world.accepted s₀.pending, fun _ _ => True⟩ := by
  refine .read_bind fun dev => .intro (p := dev = s₀.dev) (fun s hs => by rw [← hs.2, hs.1])
    fun hdev => ?_
  subst hdev
  rw [Sys.nodeLimit]
  cases s₀.dev.maxListNodes with
  | some n => exact .pure fun s hs => ⟨rfl, by rw [hs.1]; exact ⟨rfl, rfl⟩⟩
  | none =>
    have hask := (sqMaxMsgSize_triple s₀.world.machine).both
      (keeps_taken (deaf_taken s₀.world.accepted s₀.pending).sqMaxMsgSize)
    refine .bind (hask.conseq (fun s hs => ?_) (fun _ _ h => h) (fun _ _ h => h.2)
      fun _ h => h.2) fun msg => .and_pre fun hmsg => ?_
    · rw [hs.1]
      exact ⟨rfl, rfl, rfl⟩
    · subst hmsg
      exact .modify_bind (R := Taken s₀.world.accepted s₀.pending) (fun s hs => hs)
        (.pure fun s hs => ⟨rfl, hs⟩)

/-- The call has pushed a chunk, or the commands for some of its first bytes. -/
def Reports (s : Sys) (direction : Direction) (sqIndex : UInt16) (b : BufId) (addr len : ℕ) :
    Post Sys Error Unit where
  ok _ t := ∃ own, Chunk s direction sqIndex b addr len own t
  err _ t := ∃ own, ∃ off ≤ len, Chunk s direction sqIndex b addr off own t
  stop _ _ := True

theorem pushDmaStaged_reports (direction : Direction) (host : DmaHostBuffer) (len addr : ℕ)
    (opts : DmaOptions) (s : Sys) :
    (Reports s direction opts.sqIndex host.id addr len).At
      (pushDmaStaged direction host len addr opts s) := by
  have hstart : ∀ t, Taken s.world.accepted s.pending t →
      Chunk s direction opts.sqIndex host.id addr 0 [] t := fun t ht =>
    ⟨.nil, by simp, by simpa using ht⟩
  have hpush : Triple (fun t => t = s) (pushDmaStaged direction host len addr opts)
      (Reports s direction opts.sqIndex host.id addr len) := by
    refine .read_bind fun dev => .intro (p := dev = s.dev) (fun t ht => by rw [← ht.2, ht.1])
      fun hdev => ?_
    subst hdev
    refine .bind ((maxListNodes_taken s).conseq (fun _ h => h.1) (fun _ _ h => h)
      (fun _ t ht => ⟨[], 0, Nat.zero_le _, hstart t ht⟩) fun _ h => h) fun maxNodes =>
        .and_pre fun hmax => ?_
    subst hmax
    refine (pushStagedFrom_triple (P := fun off t => ∃ own,
      Chunk s direction opts.sqIndex host.id addr off own t) (E := fun _ t => ∃ off ≤ len, ∃ own,
      Chunk s direction opts.sqIndex host.id addr off own t) (by omega) (fun _ _ _ _ => trivial)
      (fun off nodes off' hnodes hne hle => .exists_pre fun own => ?_) len 0 0 [] (by omega)
      (by omega) (fun _ => rfl) ⟨rfl, by simp, by simp⟩ fun hpos => hpos).conseq
      (fun t ht => ⟨[], hstart t ht⟩) (fun _ _ h => h) (fun _ t ht => ?_) fun _ h => h
    · refine .intro (p := Stages direction opts.sqIndex host.id addr own off ∧ ∀ a ∈ own,
        ListFits (max s.dev.dram.dmaMaxElemSize 1) s.nodeLimit a.cmd.nodes)
        (fun _ h => ⟨h.stages, h.fits⟩) fun ⟨hstages, hfits⟩ => ?_
      have hlt := hnodes.consecutive.le
      refine pushList_taken.conseq (fun _ h => h.taken) (fun _ t ht => ?_)
        (fun _ t ht => ⟨off, by omega, own, hstages, hfits, ht⟩) fun _ h => h
      obtain ⟨a, ha, hacc, htags⟩ := ht
      refine ⟨own ++ [a], hstages.snoc ha hne hnodes.consecutive, fun a' ha' => ?_, ?_, ?_⟩
      · rcases List.mem_append.1 ha' with ha' | ha'
        · exact hfits a' ha'
        · obtain rfl := List.mem_singleton.1 ha'
          rw [ha.nodes_eq]
          exact ⟨List.length_pos_iff.2 hne, hnodes.count, fun n hn =>
            ⟨(hnodes.fits n hn).2.2.1, (hnodes.fits n hn).2.2.2⟩⟩
      · rw [hacc, List.append_assoc]
      · rw [htags, List.map_append, List.append_assoc]
        rfl
    · obtain ⟨off, hoff, own, ht⟩ := ht
      exact ⟨own, off, hoff, ht⟩
  exact hpush s rfl

end EtSoc

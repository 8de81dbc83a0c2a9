import EtSoc.Verification.Dma.Nodes
import EtSoc.Verification.Tags.Collect
import EtSoc.Verification.Tags.Push
import EtSoc.Verification.World.Stride

/-! # Pushing the commands of a chunk -/

namespace EtSoc

open Function Program

/-- All tags held are accounted for: those pending, those that were cut off, and the
`rest`, which are not the business of the running operation. -/
def Tidy (P : World → Prop) (fr : Frame) (rest : List Tag) : Sys → Prop :=
  Ready P fr (fr.pending ++ (fr.cut ++ rest)) []

variable {P : World → Prop} {fr : Frame} {rest : List Tag}

theorem Tidy.mono {Q : World → Prop} {s : Sys} (h : Tidy P fr rest s) (hPQ : ∀ w, P w → Q w) :
    Tidy Q fr rest s :=
  Ready.mono h hPQ

theorem Tidy.pending {s : Sys} (h : Tidy P fr rest s) : s.pending = fr.pending :=
  congrArg Frame.pending h.frame

theorem setPending_spec {tags : List Tag} {held : List Tag} {E : Error → Sys → Prop} :
    Triple (Ready P fr held []) (setPending tags)
      (Ends (fun _ => Ready P { fr with pending := tags } held []) E) :=
  .modify fun s hs => ⟨hs.tags, hs.world, by rw [← hs.frame]; rfl⟩

theorem tidy_iff (hp : fr.pending = []) {s : Sys} :
    Tidy P fr rest s ↔ Ready P fr (fr.cut ++ rest) [] s := by
  rw [Tidy, hp, List.nil_append]

theorem Frame.setPending_nil (hp : fr.pending = []) : { fr with pending := [] } = fr := by
  cases fr
  simp_all

theorem getPending_bind {α : Type} {held fresh : List Tag} {f : List Tag → M α}
    {Q : Post Sys Error α} (h : Triple (Ready P fr held fresh) (f fr.pending) Q) :
    Triple (Ready P fr held fresh) (getPending >>= f) Q :=
  .read_bind fun tags => .intro (p := tags = fr.pending)
    (fun s hs => by rw [← hs.2, ← hs.1.frame]; rfl) fun htags => by
    subst htags
    exact h.pre fun s hs => hs.1

theorem liftOption_spec {α : Type} {message : String} {o : Option α} {held fresh : List Tag}
    {E : Error → Sys → Prop} :
    Triple (Ready P fr held fresh) (liftOption message o)
      (Ends (fun a s => Ready P fr held fresh s ∧ o = some a) E) := by
  cases o with
  | none => exact .panic fun _ h => h.inOrder
  | some a => exact .pure fun _ h => ⟨h, rfl⟩

theorem u64Add_spec {a b : ℕ} {held fresh : List Tag} {E : Error → Sys → Prop} :
    Triple (Ready P fr held fresh) (u64Add a b)
      (Ends (fun c s => Ready P fr held fresh s ∧ c = a + b) E) :=
  .ite (fun _ => .pure fun _ h => ⟨h, rfl⟩) fun _ => .panic fun _ h => h.inOrder

theorem maxListNodes_spec {held : List Tag} (hP : Patient P) :
    Triple (Ready P fr held []) maxListNodes
      (Ends (fun _ => Ready P fr held [])
        fun e s => Ready P fr held [] s ∧ dmaMayBeInFlight e = true) := by
  refine .read_bind fun dev => ?_
  split
  · exact .pure fun _ h => h.1
  · refine .bind (R := fun _ => Ready P fr held []) (Triple.pre ?_ fun _ h => h.1)
      fun msg => .modify_bind (R := Ready P fr held []) (fun s h => ⟨h.tags, h.world, h.frame⟩)
        (.pure fun _ h => h)
    refine .bind (consult_spec hP) fun answer => ?_
    cases answer with
    | fail e => exact .throw fun s hs => ⟨hs, inFlight_toError e⟩
    | _ => exact fun _ h => h

/-! ## One command -/

variable {B : World → Prop} {acc : List Accepted} {direction : Direction} {sqIndex : UInt16}

/-- `B` lasts when one more list command with `nodes` is accepted, under a tag not in use. -/
def Admits (B : World → Prop) (acc : List Accepted) (direction : Direction) (sqIndex : UInt16)
    (rest : List Tag) (nodes : List DmaNode) : Prop :=
  ∀ w a, w.Sound → B w → w.accepted = acc → ListCommand direction sqIndex nodes a →
    a.hostThen = w.host → a.cmd.tagId ∉ rest → B (w.accept a.sqIndex a.descFlags a.cmd)

theorem pushList_spec {nodes : List DmaNode} (hP : Patient B)
    (hB : Admits B acc direction sqIndex rest nodes) :
    Triple (Tidy (fun w => B w ∧ w.accepted = acc) fr rest) (pushList direction sqIndex nodes)
      (Ends (fun _ s => ∃ a, ListCommand direction sqIndex nodes a ∧
          Tidy (fun w => B w ∧ w.accepted = acc ++ [a])
            { fr with pending := fr.pending ++ [a.cmd.tagId] } rest s)
        fun _ => Tidy (fun w => B w ∧ w.accepted = acc) fr rest) := by
  have hP' := hP.and (.accepted acc)
  refine .bind (nextTag_spec.conseq (fun _ h => h) (fun _ _ h => h) (fun _ _ h => h.1) fun _ h => h)
    fun tag => .bind liftOption_spec fun cmd => .intro (fun _ h => h.2) fun hcmd => ?_
  obtain ⟨rfl, -⟩ := buildDmaList_eq_some hcmd sqIndex (fun _ _ => 0)
  refine .bind ((pushCmd_spec hP').conseq (fun _ h => h.1) (fun _ _ h => h) (fun _ _ h => h.1)
    fun _ h => h) fun _ s hs => ?_
  obtain ⟨w, hsound, ⟨hBw, hacc⟩, hw⟩ := hs.world
  obtain ⟨-, hlist⟩ := buildDmaList_eq_some hcmd sqIndex w.host
  have hfresh : cmd.tagId ∉ rest := fun hin =>
    (List.nodup_cons.1 hs.tags.nodup).1 (by simp [hin])
  refine ⟨⟨sqIndex, DescFlags.dma, cmd, w.host⟩, hlist, ?_, ⟨?_, ?_⟩, ?_⟩
  · refine hs.tags.perm ?_
    simpa using List.perm_middle.symm
  · change B s.world
    rw [hw]
    exact hB w ⟨sqIndex, DescFlags.dma, cmd, w.host⟩ hsound hBw hacc hlist rfl hfresh
  · change s.world.accepted = _
    rw [hw, ← hacc]
    rfl
  · rw [← hs.frame]
    rfl

/-! ## One chunk -/

variable {host : DmaHostBuffer} {len addr : ℕ}

/-- The first `off` bytes of the chunk are staged, by the commands `own`. -/
def Staged (B : World → Prop) (fr : Frame) (rest : List Tag) (acc : List Accepted)
    (direction : Direction) (sqIndex : UInt16) (host : DmaHostBuffer) (addr off : ℕ)
    (own : List Accepted) (s : Sys) : Prop :=
  Stages direction sqIndex host.id addr own off ∧
    Tidy (fun w => B w ∧ w.accepted = acc ++ own)
      { fr with pending := fr.pending ++ own.map (·.cmd.tagId) } rest s

/-- `B` lasts when the commands of the chunk are accepted, one after the other. -/
def AdmitsChunk (B : World → Prop) (acc : List Accepted) (direction : Direction)
    (sqIndex : UInt16) (rest : List Tag) (host : DmaHostBuffer) (addr len : ℕ) : Prop :=
  ∀ own off nodes off', Stages direction sqIndex host.id addr own off →
    Consecutive host.id addr off nodes off' → off' ≤ len →
    Admits B (acc ++ own) direction sqIndex rest nodes

/-- The commands of a chunk are pushed in order; on a failure, some of the first ones. -/
theorem pushDmaStaged_spec {opts : DmaOptions} (hP : Patient B)
    (hB : AdmitsChunk B acc direction opts.sqIndex rest host addr len) :
    Triple (Tidy (fun w => B w ∧ w.accepted = acc) fr rest)
      (pushDmaStaged direction host len addr opts)
      (Ends (fun _ s => ∃ own, Staged B fr rest acc direction opts.sqIndex host addr len own s)
        fun _ s => ∃ own off, off ≤ len ∧
          Staged B fr rest acc direction opts.sqIndex host addr off own s) := by
  have hstart : ∀ s, Tidy (fun w => B w ∧ w.accepted = acc) fr rest s →
      Staged B fr rest acc direction opts.sqIndex host addr 0 [] s :=
    fun s hs => ⟨.nil, by simpa using hs⟩
  refine .read_bind fun dev => .bind (Triple.conseq (maxListNodes_spec (hP.and (.accepted acc)))
    (fun _ h => h.1) (fun _ _ h => h)
    (fun _ s h => ⟨[], 0, Nat.zero_le _, hstart s h.1⟩) fun _ h => h) fun maxNodes => ?_
  refine (pushStagedFrom_triple
    (P := fun off s => ∃ own, Staged B fr rest acc direction opts.sqIndex host addr off own s)
    (E := fun _ s => ∃ off ≤ len, ∃ own,
      Staged B fr rest acc direction opts.sqIndex host addr off own s) (by omega)
    (fun off s _ hs => ?_) (fun off nodes off' hnodes hne hle => ?_) len 0 0 [] (by omega)
    (by omega) (fun _ => rfl) ⟨rfl, by simp, by simp⟩ fun hpos => hpos).conseq
    (fun s hs => ⟨[], hstart s hs⟩) (fun _ _ h => h) (fun _ s hs => ?_) fun _ h => h
  · obtain ⟨own, hs⟩ := hs
    exact hs.2.inOrder
  · refine .exists_pre fun own => .intro (fun _ h => h.1) fun hstages => ?_
    have hlt := hnodes.consecutive.le
    refine (pushList_spec hP (hB own off nodes off' hstages hnodes.consecutive hle)).conseq
      (fun _ h => h.2) (fun _ s hs => ?_) (fun _ s hs => ⟨off, by omega, own, hstages, hs⟩)
      fun _ h => h
    obtain ⟨a, ha, hs⟩ := hs
    refine ⟨own ++ [a], hstages.snoc ha hne hnodes.consecutive, ?_⟩
    simpa [List.append_assoc] using hs
  · obtain ⟨off, hoff, own, hs⟩ := hs
    exact ⟨own, off, hoff, hs⟩

end EtSoc

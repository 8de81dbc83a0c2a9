import EtSoc.Model.Session
import EtSoc.Verification.Dma.Pinned
import EtSoc.Verification.Launch.Waits

/-! # Between two calls

What holds of a device handle whenever no call is running: of its staging buffers, of the
pinned buffers of the client, and of the tags of the launches that were not waited for. -/

namespace EtSoc

open Function Program

/-! ## Launch handles -/

/-- The tags of a launch, in the order in which its commands were accepted. -/
def Handle.tags (h : Handle) : List Tag := h.launch.argsDma ++ [h.launch.tag]

/-- The first command of a launch. -/
def Handle.first (h : Handle) : ℕ := h.cmd - h.launch.argsDma.length

/-- The tags that the launch handles own. -/
def owed (handles : List Handle) : List Tag := handles.flatMap Handle.tags

theorem owed_cons (h : Handle) (handles : List Handle) :
    owed (h :: handles) = h.launch.argsDma ++ h.launch.tag :: owed handles := by
  simp [owed, Handle.tags]

theorem tags_mem_owed {h : Handle} {handles : List Handle} (hh : h ∈ handles) {t : Tag}
    (ht : t ∈ h.tags) : t ∈ owed handles :=
  List.mem_flatMap.2 ⟨h, hh, ht⟩

/-- The tags of the launches are still those of their commands, and the arguments of each are
one chunk. -/
def World.Follows (w : World) (handles : List Handle) : Prop :=
  ∀ h ∈ handles, w.Linked h.first h.tags ∧ Chunked w.accepted h.first h.launch.argsDma.length

/-- An environment in which no command is accepted under one of `tags`. -/
def Env.without (E : Env) (tags : List Tag) : Env where
  accepts a := E.accepts a ∧ a.cmd.tagId ∉ tags
  strict := E.strict

theorem Stable.without {E : Env} {B : World → Prop} (h : Stable E B) (tags : List Tag) :
    Stable (E.without tags) B :=
  h.mono (fun _ ha => ha.1) fun _ hp => hp

theorem World.Latest.accept {w : World} {t : Tag} {c : ℕ} (h : w.Latest t c) {sq : UInt16}
    {flags : UInt8} {cmd : Command} (hne : cmd.tagId ≠ t) : (w.accept sq flags cmd).Latest t c := by
  obtain ⟨⟨a, ha, hat⟩, hmax⟩ := h
  refine ⟨⟨a, ?_, hat⟩, fun b a' ha' hat' => ?_⟩
  · have hlt := (List.getElem?_eq_some_iff.1 ha).1
    rwa [World.accept, List.getElem?_append_left hlt]
  · obtain ha' | ⟨-, rfl⟩ := World.Sound.getElem?_accept ha'
    · exact hmax b a' ha' hat'
    · exact absurd hat' hne

theorem stable_linked {E : Env} {lo : ℕ} {tags : List Tag}
    (hE : ∀ a, E.accepts a → a.cmd.tagId ∉ tags) : Stable E fun w => w.Linked lo tags := by
  intro w w' _ hst h i t hi
  cases hst with
  | step d => exact (h i t hi).of_accepted (w.step_accepted d).symm
  | accept sq flags cmd haccepts =>
    exact (h i t hi).accept fun heq => hE _ haccepts (heq ▸ List.mem_of_getElem? hi)
  | _ => exact h i t hi

theorem Chunked.grow {acc acc' : List Accepted} {lo count : ℕ} (h : Chunked acc lo count)
    (hacc : acc <+: acc') : Chunked acc' lo count := by
  intro i hi hlt
  obtain ⟨a, ha, hcontinues⟩ := h i hi hlt
  exact ⟨a, getElem?_of_isPrefix hacc ha, hcontinues⟩

theorem stable_follows {E : Env} {handles : List Handle} :
    Stable (E.without (owed handles)) fun w => w.Follows handles :=
  fun w w' hs hst h handle hh => ⟨stable_linked (E := E.without (owed handles))
    (fun _ ha hin => ha.2 (tags_mem_owed hh hin)) w w' hs hst (h handle hh).1,
    (h handle hh).2.grow hst.grows.accepted⟩

theorem stable_completedFrom {E : Env} {lo hi : ℕ} : Stable E fun w => w.CompletedFrom lo hi :=
  fun _ _ _ hst h c hlo hhi => hst.grows.completed (h c hlo hhi)

/-! ## Pinned buffers -/

/-- The pinned buffers of the client are distinct mappings. -/
structure Distinct (pinned : List DmaHostBuffer) : Prop where
  nodup : (pinned.map (·.id)).Nodup
  purpose : ∀ host ∈ pinned, host.id.purpose = .pinned

theorem Distinct.sublist {pinned pinned' : List DmaHostBuffer} (h : Distinct pinned)
    (hsub : pinned'.Sublist pinned) : Distinct pinned' :=
  ⟨(hsub.map _).nodup h.nodup, fun host hh => h.purpose host (hsub.subset hh)⟩

/-- The world as far as the pinned buffers are concerned. In a `clean` run none of the first
commands transfers such a buffer any more. -/
structure Racked (clean : Prop) (acc : List Accepted) (pinned : List DmaHostBuffer) (w : World) :
    Prop where
  mapped : ∀ host ∈ pinned, host.id.serial < w.nextBuf
  released : clean → ∀ host ∈ pinned, w.Released acc host.id

theorem stable_racked {E : Env} {clean : Prop} {acc : List Accepted}
    {pinned : List DmaHostBuffer} : Stable E (Racked clean acc pinned) :=
  fun w w' hs hst h => ⟨fun host hh => (h.mapped host hh).trans_le hst.grows.nextBuf,
    fun hclean host hh => stable_released E acc _ w w' hs hst (h.released hclean host hh)⟩

theorem Racked.subset {clean : Prop} {acc : List Accepted} {pinned pinned' : List DmaHostBuffer}
    {w : World} (h : Racked clean acc pinned w) (hsub : pinned' ⊆ pinned) :
    Racked clean acc pinned' w :=
  ⟨fun host hh => h.mapped host (hsub hh), fun hclean host hh => h.released hclean host (hsub hh)⟩

/-! ## Argument slots -/

/-- The buffers of the slots are mapped. -/
def Slotted (slots : List ArgsSlot) (w : World) : Prop :=
  ∀ slot ∈ slots, ∀ host, slot.host = some host → host.id.serial < w.nextBuf

theorem stable_slotted {E : Env} {slots : List ArgsSlot} : Stable E (Slotted slots) :=
  fun _ _ _ hst h slot hmem host hh => (h slot hmem host hh).trans_le hst.grows.nextBuf

/-! ## The assertion -/

variable {E : Env} {clean clean' : Prop} {X : World → Prop} {acc own : List Accepted}
  {fr fr' : Frame} {handles : List Handle} {pinned : List DmaHostBuffer}

/-- What is known of the world, besides what concerns the staging buffers. -/
structure Base (clean : Prop) (X : World → Prop) (acc : List Accepted) (fr : Frame)
    (handles : List Handle) (pinned : List DmaHostBuffer) (w : World) : Prop where
  extra : X w
  follows : w.Follows handles
  racked : Racked clean acc pinned w
  slotted : Slotted fr.argsSlots w

theorem stable_base (hX : Stable E X) :
    Stable (E.without (owed handles)) (Base clean X acc fr handles pinned) :=
  fun w w' hs hst h => ⟨hX.without _ w w' hs hst h.extra, stable_follows w w' hs hst h.follows,
    stable_racked w w' hs hst h.racked, stable_slotted w w' hs hst h.slotted⟩

/-- The commands `acc` were accepted so far, and no call is running. -/
def Rests (clean : Prop) (X : World → Prop) (acc : List Accepted) (fr : Frame)
    (handles : List Handle) (pinned : List DmaHostBuffer) : Sys → Prop :=
  Shelved clean (Base clean X acc fr handles pinned) acc fr (owed handles)

/-- What holds of the frame when no call is running. -/
structure Idle (fr : Frame) : Prop where
  stocked : Stocked fr
  pending : fr.pending = []
  arguments : ∀ slot ∈ fr.argsSlots, ∀ host, slot.host = some host → host.id.purpose = .arguments

/-- The buffers `gone` were unmapped, and nothing else has changed that concerns `Rests`. -/
structure Frame.Alike (fr fr' : Frame) (gone : List BufId) : Prop where
  staging : fr'.staging = fr.staging
  stagingCapacity : fr'.stagingCapacity = fr.stagingCapacity
  pending : fr'.pending = fr.pending
  cut : fr'.cut = fr.cut
  argsSlots : ∀ slot ∈ fr'.argsSlots, slot ∈ fr.argsSlots
  unmapped : fr'.unmapped = gone ++ fr.unmapped
  foreign : ∀ b ∈ gone, b.purpose ≠ .staging

variable {gone : List BufId}

theorem Idle.alike (h : Idle fr) (hf : fr.Alike fr' gone) : Idle fr' := by
  refine ⟨⟨?_, ?_, ?_, ?_⟩, hf.pending.trans h.pending,
    fun slot hslot => h.arguments slot (hf.argsSlots slot hslot)⟩
  · rw [hf.staging]
    exact h.stocked.buffers
  · rw [hf.staging]
    exact h.stocked.positive
  · rw [hf.staging, hf.unmapped]
    intro b hb hin
    rcases List.mem_append.1 hin with hin | hin
    · exact hf.foreign _ hin (h.stocked.buffers.purpose b hb)
    · exact h.stocked.apart b hb hin
  · rw [hf.stagingCapacity]
    exact h.stocked.capacity

theorem Rests.alike {s : Sys} (hf : fr.Alike fr' gone)
    (hgone : ∀ w, Base clean X acc fr handles pinned w → ∀ b ∈ gone, b.serial < w.nextBuf)
    (h : Ready (fun w => Shelf clean (Base clean X acc fr handles pinned) acc fr w ∧ w.accepted = acc) fr'
      (fr.pending ++ (fr.cut ++ owed handles)) [] s) : Rests clean X acc fr' handles pinned s := by
  unfold Rests Shelved Tidy
  rw [hf.cut, hf.pending]
  refine h.mono fun w ⟨hw, hacc⟩ => ⟨⟨⟨hw.base.extra, hw.base.follows, ?_, ?_⟩, hw.known, ?_, ?_, ?_,
    ?_⟩, hacc⟩
  · exact hw.base.racked
  · exact fun slot hslot => hw.base.slotted slot (hf.argsSlots slot hslot)
  · rw [hf.staging]
    exact hw.mapped
  · rw [hf.unmapped]
    intro b hb
    rcases List.mem_append.1 hb with hb | hb
    · exact hgone w hw.base b hb
    · exact hw.gone b hb
  · rw [hf.staging]
    exact hw.released
  · rw [hf.unmapped]
    intro hclean b hb hp
    rcases List.mem_append.1 hb with hb | hb
    · exact absurd hp (hf.foreign b hb)
    · exact hw.discarded hclean b hb hp

theorem Shelf.mono {B B' : World → Prop} {w : World} (h : Shelf clean B acc fr w) (hB : B w → B' w) :
    Shelf clean B' acc fr w :=
  ⟨hB h.base, h.known, h.mapped, h.gone, h.released, h.discarded⟩

theorem Base.mono {X' : World → Prop} {w : World} (h : Base clean X acc fr handles pinned w)
    (hX : X w → X' w) : Base clean X' acc fr handles pinned w :=
  ⟨hX h.extra, h.follows, h.racked, h.slotted⟩

theorem Rests.mono {X' : World → Prop} {s : Sys} (h : Rests clean X acc fr handles pinned s)
    (hX : ∀ w, X w → X' w) : Rests clean X' acc fr handles pinned s :=
  Ready.mono h fun w hw => ⟨hw.1.mono fun hbase => hbase.mono (hX w), hw.2⟩

theorem Base.weaken {w : World} (h : Base clean X acc fr handles pinned w)
    (hclean : clean' → clean) : Base clean' X acc fr handles pinned w :=
  ⟨h.extra, h.follows, ⟨h.racked.mapped, fun hc => h.racked.released (hclean hc)⟩, h.slotted⟩

theorem Rests.weaken {s : Sys} (h : Rests clean X acc fr handles pinned s)
    (hclean : clean' → clean) : Rests clean' X acc fr handles pinned s :=
  Ready.mono h fun _ hw => ⟨(hw.1.weaken hclean).mono fun hbase => hbase.weaken hclean, hw.2⟩

theorem Rests.patient (hX : Stable E X) :
    Patient fun w => Shelf clean (Base clean X acc fr handles pinned) acc fr w ∧ w.accepted = acc :=
  (stable_shelf (stable_base hX)).patient.and (.accepted acc)

end EtSoc

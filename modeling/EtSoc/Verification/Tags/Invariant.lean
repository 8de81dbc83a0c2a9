import EtSoc.Model.Tags
import EtSoc.Verification.Tags.Failures
import EtSoc.Verification.World.Sound

/-! # The tag invariant

Every reserved tag is held by a waiter, was abandoned by one, or was just reserved. The
response to an unpopped command concerns the last command pushed under its tag. -/

namespace EtSoc

open Function

/-- `c` is the last command accepted under tag `t`. -/
def World.Latest (w : World) (t : Tag) (c : ℕ) : Prop :=
  (∃ a, w.accepted[c]? = some a ∧ a.cmd.tagId = t) ∧
    ∀ b a, w.accepted[b]? = some a → a.cmd.tagId = t → b ≤ c

theorem World.Latest.unique {w : World} {t : Tag} {c c' : ℕ} (h : w.Latest t c)
    (h' : w.Latest t c') : c = c' := by
  obtain ⟨⟨a, ha, hat⟩, hmax⟩ := h
  obtain ⟨⟨a', ha', hat'⟩, hmax'⟩ := h'
  have := hmax c' a' ha' hat'
  have := hmax' c a ha hat
  omega

/-- What the host knows of its tags, and the device behind it. -/
structure Books where
  world : World
  outstanding : Finset Tag
  abandoned : Finset Tag
  stash : Tag → Option PoppedResponse
  log : List QueueEvent
  cut : List Tag

def Sys.books (s : Sys) : Books :=
  ⟨s.world, s.dev.outstanding, s.dev.abandoned, s.dev.stash, s.log, s.cut⟩

/-- The tags `held` are waited for, the tags `fresh` reserved for commands to be pushed. -/
structure TagInv (held fresh : List Tag) (b : Books) : Prop where
  sound : b.world.Sound
  bears : b.world.machine.bearsTag = true
  nodup : (fresh ++ held).Nodup
  outstanding : ∀ t, t ∈ b.outstanding ↔ t ∈ b.abandoned ∨ t ∈ held ∨ t ∈ fresh
  disjoint : ∀ t ∈ b.abandoned, t ∉ held ∧ t ∉ fresh
  unpopped : ∀ c a, b.world.accepted[c]? = some a → b.world.popped c = false →
    (a.cmd.tagId ∈ b.abandoned ∨ a.cmd.tagId ∈ held) ∧ b.world.Latest a.cmd.tagId c
  awaited : ∀ t ∈ held, ∃ c, waiting b.log t = some c ∧ b.world.Latest t c ∧
    (b.world.machine.wellFormed = true → b.world.popped c = true → b.stash t ≠ none)
  unawaited : ∀ t, t ∉ held → waiting b.log t = none
  stashed : ∀ t rsp, b.stash t = some rsp → ∃ c, waiting b.log t = some c ∧ Popped b.log c rsp
  lingering : b.world.machine.wellFormed = true → ∀ t ∈ b.abandoned,
    ∃ c a, b.world.accepted[c]? = some a ∧ a.cmd.tagId = t ∧ b.world.popped c = false
  pushed : ∀ t c, .pushed t c ∈ b.log → ∃ a, b.world.accepted[c]? = some a ∧ a.cmd.tagId = t
  popped : ∀ c rsp, Popped b.log c rsp →
    b.world.popped c = true ∧ b.world.answer c = some rsp.bytes
  logOk : LogOk (b.world.machine.wellFormed = true) b.log
  quiet : b.world.machine.wellFormed = true → Quiet b.log
  torn : b.cut ≠ [] → Torn b.world.accepted b.log

theorem TagInv.init (machine : Machine) (mem : Memory) (hbears : machine.bearsTag = true) :
    TagInv [] [] ⟨.init machine mem, ∅, ∅, fun _ => none, [], []⟩ := by
  refine ⟨World.Sound.init machine mem, hbears, List.nodup_nil, ?_, ?_, ?_, ?_, fun _ _ => rfl,
    ?_, ?_, ?_, ?_, .nil, ?_, ?_⟩ <;> simp [World.init, Popped, Quiet]

namespace TagInv
variable {held fresh : List Tag} {b : Books}

theorem held_of_stashed (h : TagInv held fresh b) {t : Tag} {rsp : PoppedResponse}
    (hs : b.stash t = some rsp) : t ∈ held := by
  obtain ⟨c, hw, -⟩ := h.stashed t rsp hs
  by_contra hnot
  simp [h.unawaited t hnot] at hw

/-- Every command that was pushed under a tag not outstanding was popped. -/
theorem popped_of_released (h : TagInv held fresh b) {t : Tag} (ht : t ∉ b.outstanding)
    {c : ℕ} {a : Accepted} (ha : b.world.accepted[c]? = some a) (hat : a.cmd.tagId = t) :
    b.world.popped c = true := by
  by_contra hp
  obtain ⟨hown, -⟩ := h.unpopped c a ha (by simpa using hp)
  rw [h.outstanding] at ht
  rw [hat] at hown
  tauto

theorem perm {held' : List Tag} (h : TagInv held fresh b) (hp : held.Perm held') :
    TagInv held' fresh b := by
  have hmem : ∀ t, t ∈ held' ↔ t ∈ held := fun t => hp.mem_iff.symm
  exact { h with
    nodup := (hp.append_left fresh).nodup h.nodup
    outstanding := by simpa only [hmem] using h.outstanding
    disjoint := by simpa only [hmem] using h.disjoint
    unpopped := by simpa only [hmem] using h.unpopped
    awaited := by simpa only [hmem] using h.awaited
    unawaited := by simpa only [hmem] using h.unawaited }

/-- The world has moved on, with no command accepted or popped. -/
theorem later {w : World} (h : TagInv held fresh b) (hsound : w.Sound)
    (hm : w.machine = b.world.machine) (ha : w.accepted = b.world.accepted)
    (hp : w.popped = b.world.popped)
    (hr : ∀ c rsp, b.world.answer c = some rsp → w.answer c = some rsp) :
    TagInv held fresh { b with world := w } := by
  have hlatest : ∀ t c, w.Latest t c ↔ b.world.Latest t c := fun t c => by
    simp only [World.Latest, ha]
  exact { h with
    sound := hsound
    bears := by simpa only [hm] using h.bears
    unpopped := by simpa only [ha, hp, hlatest] using h.unpopped
    awaited := by simpa only [hm, hp, hlatest] using h.awaited
    lingering := by simpa only [hm, ha, hp] using h.lingering
    pushed := by simpa only [ha] using h.pushed
    popped := fun c rsp hc => ⟨by simpa only [hp] using (h.popped c rsp hc).1,
      hr _ _ (h.popped c rsp hc).2⟩
    logOk := by simpa only [hm] using h.logOk
    quiet := by simpa only [hm] using h.quiet
    torn := by simpa only [ha] using h.torn }

theorem step (h : TagInv held fresh b) (d : World.DevStep) :
    TagInv held fresh { b with world := b.world.step d } :=
  h.later (h.sound.step d) (by simp) (by simp) (by simp) fun _ _ hc => (b.world.act_moves d).answer hc

/-- Tags are forgotten when a wait failed for a command whose chunk the next one goes on with. -/
theorem forget (h : TagInv held fresh b) (tags : List Tag)
    (htorn : tags ≠ [] → Torn b.world.accepted b.log) :
    TagInv held fresh { b with cut := tags ++ b.cut } :=
  { h with
    torn := fun hcut => by
      obtain rfl | hne := eq_or_ne tags []
      · exact h.torn hcut
      · exact htorn hne }

end TagInv

end EtSoc

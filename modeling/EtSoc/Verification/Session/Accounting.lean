import EtSoc.Verification.Session.Completions
import EtSoc.Verification.Session.Recycling

/-! # Accounting for tags -/

namespace EtSoc

open Function Program

namespace Session

/-- The tags of the launches that were not waited for, dropped ones included. -/
def awaitable (s : Session) : List Tag := owed s.unwaited

/-- Every outstanding tag was abandoned, or is that of a launch not waited for. -/
def Covered (s : Session) : Prop :=
  ∀ t ∈ s.sys.dev.outstanding, t ∈ s.sys.dev.abandoned ∨ t ∈ s.awaitable

instance (s : Session) : Decidable s.Covered :=
  Finset.decidableDforallFinset

/-- Every outstanding tag was abandoned or belongs to one launch that was not waited for, and
only responses to the latter are kept. -/
structure Accounted (s : Session) : Prop where
  outstanding : ∀ t, t ∈ s.sys.dev.outstanding ↔ t ∈ s.sys.dev.abandoned ∨ t ∈ s.awaitable
  disjoint : ∀ t ∈ s.sys.dev.abandoned, t ∉ s.awaitable
  nodup : s.awaitable.Nodup
  stashed : ∀ t, s.sys.dev.stash t ≠ none →
    t ∈ s.sys.dev.outstanding ∧ t ∉ s.sys.dev.abandoned ∧ t ∈ s.awaitable

/-- No tag and no response is left. -/
structure Cleared (s : Session) : Prop where
  outstanding : s.sys.dev.outstanding = ∅
  abandoned : s.sys.dev.abandoned = ∅
  stash : ∀ t, s.sys.dev.stash t = none

/-- All launches were waited for, and all responses popped. -/
def Drained (s : Session) : Prop :=
  s.unwaited = [] ∧ ∀ c < s.sys.world.accepted.length, s.sys.world.popped c = true

variable {clean : Prop} {X : World → Prop} {s : Session}

/-- The tags held between two calls: those forgotten and those of the launches. -/
theorem Good.tags (h : Good clean X s) (hstop : s.stopped = none) :
    TagInv (s.sys.cut ++ s.awaitable) [] s.sys.books := by
  obtain ⟨-, acc, fr, hidle, hs⟩ := h.paused hstop
  have htags := hs.tags
  have hcut : s.sys.cut = fr.cut := congrArg Frame.cut hs.frame
  rw [hidle.pending, List.nil_append, ← hcut] at htags
  exact htags

/-- A tag that was forgotten has no handle, and was not abandoned. -/
theorem Good.cut_eq_nil (h : Good clean X s) (hstop : s.stopped = none) (hcovered : s.Covered) :
    s.sys.cut = [] := by
  have htags := h.tags hstop
  have hnodup : (s.sys.cut ++ s.awaitable).Nodup := htags.nodup
  by_contra hcut
  obtain ⟨t, ht⟩ := List.exists_mem_of_ne_nil _ hcut
  have hheld : t ∈ s.sys.cut ++ s.awaitable := List.mem_append_left _ ht
  rcases hcovered t ((htags.outstanding t).2 (.inr (.inl hheld))) with habandoned | hawaitable
  · exact (htags.disjoint t habandoned).1 hheld
  · exact (List.disjoint_of_nodup_append hnodup) ht hawaitable

theorem Good.clean_of_covered (h : Good clean X s) (hstop : s.stopped = none)
    (hcovered : s.Covered) : s.sys.Clean :=
  fun hcut => absurd (h.cut_eq_nil hstop hcovered) hcut

/-- Unless a tag was forgotten, all are accounted for. -/
theorem Good.accounted (h : Good clean X s) (hstop : s.stopped = none) (hcut : s.sys.cut = []) :
    s.Accounted := by
  have htags := h.tags hstop
  rw [hcut, List.nil_append] at htags
  have hout : ∀ t, t ∈ s.sys.dev.outstanding ↔ t ∈ s.sys.dev.abandoned ∨ t ∈ s.awaitable :=
    fun t => by
      have := htags.outstanding t
      rwa [List.mem_nil_iff, or_false] at this
  have hdisjoint : ∀ t ∈ s.sys.dev.abandoned, t ∉ s.awaitable := fun t ht => (htags.disjoint t ht).1
  refine ⟨hout, hdisjoint, htags.nodup, fun t ht => ?_⟩
  obtain ⟨rsp, hrsp⟩ := Option.ne_none_iff_exists'.1 ht
  have hheld : t ∈ s.awaitable := htags.held_of_stashed hrsp
  exact ⟨(hout t).2 (.inr hheld), fun habandoned => hdisjoint t habandoned hheld, hheld⟩

/-- Of a driver that accounts for all its tags nothing is left in the end. -/
theorem Good.cleared (h : Good clean X s) (hstop : s.stopped = none)
    (hformed : s.sys.world.machine.wellFormed = true) (haccounted : s.Accounted)
    (hdrained : s.Drained) : s.Cleared := by
  have hnone : ∀ t, t ∉ s.awaitable := by simp [awaitable, hdrained.1, owed]
  have habandoned : s.sys.dev.abandoned = ∅ := by
    refine Finset.eq_empty_of_forall_notMem fun t ht => ?_
    obtain ⟨c, a, ha, -, hpop⟩ := (h.tags hstop).lingering hformed t ht
    have hlt := (List.getElem?_eq_some_iff.1 ha).1
    rw [show s.sys.books.world.popped c = true from hdrained.2 c hlt] at hpop
    simp at hpop
  refine ⟨Finset.eq_empty_of_forall_notMem fun t ht => ?_, habandoned, fun t => ?_⟩
  · rcases (haccounted.outstanding t).1 ht with hgone | hheld
    · simp [habandoned] at hgone
    · exact hnone t hheld
  · by_contra hstash
    exact hnone t (haccounted.stashed t hstash).2.2

/-- In any run in which no wait for a command fails while the next command goes on with its
chunk, all tags are accounted for. -/
theorem accounts {setup : Setup} (calls : List Call) (hbears : setup.machine.bearsTag = true)
    (hformed : setup.machine.wellFormed = true)
    (hstop : ((init setup).run calls).stopped = none)
    (hwhole : ¬Torn ((init setup).run calls).sys.world.accepted ((init setup).run calls).sys.log) :
    ((init setup).run calls).Accounted ∧
      (((init setup).run calls).Drained → ((init setup).run calls).Cleared) := by
  have hgood := good_run hbears calls
  have hcut : ((init setup).run calls).sys.cut = [] := by
    by_contra hcut
    exact hwhole ((hgood.tags hstop).torn hcut)
  have haccounted := hgood.accounted hstop hcut
  refine ⟨haccounted, hgood.cleared hstop ?_ haccounted⟩
  rw [run_machine]
  exact hformed

/-- A transfer fails with its last command, another is given up on, and a kernel is launched. -/
def fallible : Setup := narrow (granted 4 ++ [served 0 0 0, served 1 1 1] ++ granted 2 ++
  [⟨[], .no⟩, ⟨[], .yes⟩] ++ granted 1 ++ [served 2 2 0, served 3 3 0])

def fallible.calls : List Call :=
  [.setStagingCapacity 1, .memcpyD2h 0 4 .default, .memcpyH2d [1, 2] 0 ⟨0, some 5⟩,
    .launchAsync ⟨0⟩ (.new 1)]

theorem accounts_fallible : ((init fallible).run fallible.calls).Accounted ∧
    ((init fallible).run fallible.calls).sys.dev.outstanding = {2, 3} ∧
    ((init fallible).run (fallible.calls ++ [.waitLaunch 0])).Cleared := by
  have hdrained : ((init fallible).run (fallible.calls ++ [.waitLaunch 0])).Drained :=
    ⟨List.length_eq_zero_iff.1 (by decide +kernel), by decide +kernel⟩
  have hdone := @accounts fallible (fallible.calls ++ [.waitLaunch 0]) rfl rfl
    (by decide +kernel) (by decide +kernel)
  exact ⟨(accounts fallible.calls rfl rfl (by decide +kernel) (by decide +kernel)).1,
    by decide +kernel, hdone.2 hdrained⟩

/-- Without launches, only abandoned tags may be outstanding. -/
theorem Accounted.subset (h : s.Accounted) (hhandles : s.handles = []) :
    s.sys.dev.outstanding ⊆ s.sys.dev.abandoned := by
  intro t ht
  rcases (h.outstanding t).1 ht with habandoned | hheld
  · exact habandoned
  · simp [awaitable, unwaited, hhandles, owed] at hheld

set_option maxRecDepth 100000 in
/-- The tag of the second command is outstanding for ever, and nobody's. -/
theorem not_accounted_torn : ((init (torn [])).run [.memcpyD2h 0 40 .default]).stopped = none ∧
    ((init (torn [])).run [.memcpyD2h 0 40 .default]).handles.length = 0 ∧
    ¬((init (torn [])).run [.memcpyD2h 0 40 .default]).Accounted := by
  have hhandles : ((init (torn [])).run [.memcpyD2h 0 40 .default]).handles.length = 0 := by
    decide +kernel
  exact ⟨by decide +kernel, hhandles, fun h =>
    absurd (h.subset (List.length_eq_zero_iff.1 hhandles)) (by decide +kernel)⟩

end Session

end EtSoc

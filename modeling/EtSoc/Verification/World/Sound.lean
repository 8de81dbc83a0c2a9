import EtSoc.Verification.World.Moves

/-! # Invariants of the device

What holds of every world that a device has reached, whatever the host did. -/

namespace EtSoc.World

open Function

structure Sound (w : World) : Prop where
  started_lt : ∀ c, w.started c = true → c < w.accepted.length
  answered_started : ∀ c rsp, w.answer c = some rsp → w.started c = true
  popped_answered : ∀ c, w.popped c = true → ∃ rsp, w.answer c = some rsp
  ran_started : ∀ c, w.ran c = true → w.started c = true
  left_subset : ∀ c a, w.accepted[c]? = some a → ∀ n ∈ w.left c, n ∈ a.cmd.nodes
  left_unstarted : ∀ c a, w.accepted[c]? = some a → w.started c = false → w.left c = a.cmd.nodes
  bears : w.machine.bearsTag = true → ∀ c a rsp, w.accepted[c]? = some a →
    w.answer c = some rsp → ∀ header ∈ ResponseHeader.parse rsp, header.tagId = a.cmd.tagId
  wellFormed : w.machine.wellFormed = true → ∀ c rsp, w.answer c = some rsp → 8 ≤ rsp.length
  worked : w.machine.executes = true → ∀ c a rsp, w.accepted[c]? = some a →
    w.answer c = some rsp → w.Done c a ∨ (w.machine.faults = true ∧ ¬success rsp)

theorem Sound.init (machine : Machine) (mem : Memory) : Sound (World.init machine mem) := by
  constructor <;> simp [World.init]

namespace Sound
variable {w : World}

theorem answered_lt (h : w.Sound) {c : ℕ} {rsp : List UInt8} (hc : w.answer c = some rsp) :
    c < w.accepted.length :=
  h.started_lt c (h.answered_started c rsp hc)

theorem popped_lt (h : w.Sound) {c : ℕ} (hc : w.popped c = true) : c < w.accepted.length := by
  obtain ⟨rsp, hrsp⟩ := h.popped_answered c hc
  exact h.answered_lt hrsp

/-- Nothing is known yet of a command that is still to come. -/
theorem fresh (h : w.Sound) {c : ℕ} (hc : w.accepted.length ≤ c) :
    w.started c = false ∧ w.answer c = none ∧ w.popped c = false ∧ w.ran c = false := by
  have hstarted : w.started c = false := by
    by_contra hs
    have := h.started_lt c (by simpa using hs)
    omega
  refine ⟨hstarted, ?_, ?_, ?_⟩
  · by_contra ha
    obtain ⟨rsp, hrsp⟩ := Option.ne_none_iff_exists'.1 ha
    have := h.answered_lt hrsp
    omega
  · by_contra hp
    have := h.popped_lt (by simpa using hp)
    omega
  · by_contra hr
    have := h.ran_started c (by simpa using hr)
    simp_all

theorem start (h : w.Sound) {c : ℕ} {a : Accepted} (ha : w.accepted[c]? = some a) :
    (w.start c).Sound := by
  obtain ⟨hc, -⟩ := List.getElem?_eq_some_iff.1 ha
  have hup : ∀ b, w.started b = true → update w.started c true b = true := fun b hb => by
    by_cases hbc : b = c
    · simp [hbc]
    · rwa [update_of_ne hbc]
  refine ⟨fun b hb => ?_, fun b rsp hb => hup b (h.answered_started b rsp hb), h.popped_answered,
    fun b hb => hup b (h.ran_started b hb), h.left_subset, fun b a' ha' hb => ?_, h.bears,
    h.wellFormed, h.worked⟩
  · by_cases hbc : b = c
    · exact hbc ▸ hc
    · exact h.started_lt b (by simpa [World.start, update_of_ne hbc] using hb)
  · by_cases hbc : b = c
    · simp [World.start, hbc] at hb
    · exact h.left_unstarted b a' ha' (by simpa [World.start, update_of_ne hbc] using hb)

theorem copy (h : w.Sound) {c : ℕ} {isWrite : Bool} {node : DmaNode}
    (hrun : w.running c = true) : (w.copy c isWrite node).Sound := by
  obtain ⟨hstarted, hanswer⟩ := running_iff.1 hrun
  refine ⟨by simpa using h.started_lt, by simpa using h.answered_started,
    by simpa using h.popped_answered, by simpa using h.ran_started, fun b a ha n hn => ?_,
    fun b a ha hb => ?_, by simpa using h.bears, by simpa using h.wellFormed, ?_⟩
  · by_cases hbc : b = c
    · subst hbc
      rw [copy_left, update_self] at hn
      exact h.left_subset b a (by simpa using ha) n (List.mem_of_mem_erase hn)
    · rw [copy_left, update_of_ne hbc] at hn
      exact h.left_subset b a (by simpa using ha) n hn
  · have hbc : b ≠ c := by
      rintro rfl
      simp [hstarted] at hb
    rw [copy_left, update_of_ne hbc]
    exact h.left_unstarted b a (by simpa using ha) (by simpa using hb)
  · intro hex b a rsp ha hb
    have hbc : b ≠ c := by
      rintro rfl
      simp [hanswer] at hb
    have := h.worked (by simpa using hex) b a rsp (by simpa using ha) (by simpa using hb)
    simpa [Done, update_of_ne hbc] using this

theorem exec (h : w.Sound) {c : ℕ} {launch : KernelLaunch} (hrun : w.running c = true) :
    (w.exec c launch).Sound := by
  obtain ⟨hstarted, hanswer⟩ := running_iff.1 hrun
  refine ⟨h.started_lt, h.answered_started, h.popped_answered, fun b hb => ?_, h.left_subset,
    h.left_unstarted, h.bears, h.wellFormed, ?_⟩
  · by_cases hbc : b = c
    · exact hbc ▸ hstarted
    · exact h.ran_started b (by simpa [World.exec, update_of_ne hbc] using hb)
  · intro hex b a rsp ha hb
    have hbc : b ≠ c := by
      rintro rfl
      simp [World.exec, hanswer] at hb
    simpa [World.exec, Done, update_of_ne hbc] using h.worked hex b a rsp ha hb

theorem respond (h : w.Sound) {c : ℕ} {a : Accepted} {rsp : List UInt8}
    (ha : w.accepted[c]? = some a) (hmay : w.MayAnswer c a rsp) : (w.respond c rsp).Sound := by
  obtain ⟨hrun, hwell, hbears, hdone⟩ := hmay
  have hstarted := (running_iff.1 hrun).1
  have hup : ∀ b r, (w.respond c rsp).answer b = some r →
      (b = c ∧ r = rsp) ∨ w.answer b = some r := fun b r hb => by
    by_cases hbc : b = c
    · subst hbc
      left
      simpa [World.respond, eq_comm] using hb
    · right
      simpa [World.respond, update_of_ne hbc] using hb
  refine ⟨h.started_lt, fun b r hb => ?_, fun b hb => ?_, h.ran_started, h.left_subset,
    h.left_unstarted, fun hm b a' r ha' hb => ?_, fun hm b r hb => ?_, fun hm b a' r ha' hb => ?_⟩
  · obtain ⟨rfl, -⟩ | hb := hup b r hb
    · exact hstarted
    · exact h.answered_started b r hb
  · by_cases hbc : b = c
    · exact ⟨rsp, by simp [World.respond, hbc]⟩
    · obtain ⟨r, hr⟩ := h.popped_answered b hb
      exact ⟨r, by simpa [World.respond, update_of_ne hbc] using hr⟩
  · obtain ⟨rfl, rfl⟩ | hb := hup b r hb
    · obtain rfl : a = a' := Option.some.inj (ha.symm.trans ha')
      exact hbears hm
    · exact h.bears hm b a' r ha' hb
  · obtain ⟨rfl, rfl⟩ | hb := hup b r hb
    · exact hwell hm
    · exact h.wellFormed hm b r hb
  · obtain ⟨rfl, rfl⟩ | hb := hup b r hb
    · obtain rfl : a = a' := Option.some.inj (ha.symm.trans ha')
      exact hdone hm
    · exact h.worked hm b a' r ha' hb

theorem moves {w' : World} (h : w.Sound) (hm : w.Moves w') : w'.Sound := by
  cases hm with
  | rest => exact h
  | start ha => exact h.start ha
  | copy _ _ hrun => exact h.copy hrun
  | exec _ _ hrun => exact h.exec hrun
  | respond ha hmay => exact h.respond ha hmay

theorem step (h : w.Sound) (d : DevStep) : (w.step d).Sound := by
  obtain ⟨h₁, h₂, h₃, h₄, h₅, h₆, h₇, h₈, h₉⟩ := h.moves (w.act_moves d)
  exact ⟨h₁, h₂, h₃, h₄, h₅, h₆, h₇, h₈, h₉⟩

/-! ## The operations of the host -/

theorem getElem?_accept {sq : UInt16} {flags : UInt8} {cmd : Command} {c : ℕ} {a : Accepted}
    (ha : (w.accept sq flags cmd).accepted[c]? = some a) :
    w.accepted[c]? = some a ∨ (c = w.accepted.length ∧ a = ⟨sq, flags, cmd, w.host⟩) := by
  obtain hc | hc := Nat.lt_or_ge c w.accepted.length
  · left
    simpa [World.accept, List.getElem?_append_left hc] using ha
  · right
    simp only [World.accept, List.getElem?_append_right hc, List.getElem?_singleton] at ha
    split at ha
    · exact ⟨by omega, by simpa [eq_comm] using ha⟩
    · simp at ha

theorem accept (h : w.Sound) (sq : UInt16) (flags : UInt8) (cmd : Command) :
    (w.accept sq flags cmd).Sound := by
  obtain ⟨hstarted, hanswer, -, -⟩ := h.fresh (Nat.le_refl _)
  have hold : ∀ c a, w.accepted[c]? = some a →
      (w.accept sq flags cmd).left c = w.left c := fun c a ha => by
    obtain ⟨hc, -⟩ := List.getElem?_eq_some_iff.1 ha
    exact update_of_ne (by omega) ..
  refine ⟨fun c hc => ?_, h.answered_started, h.popped_answered, h.ran_started,
    fun c a ha n hn => ?_, fun c a ha hc => ?_, fun hm c a rsp ha hc => ?_, h.wellFormed,
    fun hm c a rsp ha hc => ?_⟩
  · have := h.started_lt c hc
    simp only [World.accept, List.length_append, List.length_singleton]
    omega
  · obtain ha | ⟨rfl, rfl⟩ := getElem?_accept ha
    · exact h.left_subset c a ha n (by rwa [hold c a ha] at hn)
    · simpa [World.accept] using hn
  · obtain ha | ⟨rfl, rfl⟩ := getElem?_accept ha
    · rw [hold c a ha]
      exact h.left_unstarted c a ha hc
    · simp [World.accept]
  · obtain ha | ⟨rfl, rfl⟩ := getElem?_accept ha
    · exact h.bears hm c a rsp ha hc
    · simp [World.accept, hanswer] at hc
  · obtain ha | ⟨rfl, rfl⟩ := getElem?_accept ha
    · rw [Done, hold c a ha]
      exact h.worked hm c a rsp ha hc
    · simp [World.accept, hanswer] at hc

theorem pop (h : w.Sound) {c : ℕ} {rsp : List UInt8} (hc : w.answer c = some rsp) :
    (w.pop c).Sound := by
  refine ⟨h.started_lt, h.answered_started, fun b hb => ?_, h.ran_started, h.left_subset,
    h.left_unstarted, h.bears, h.wellFormed, h.worked⟩
  by_cases hbc : b = c
  · exact ⟨rsp, hbc ▸ hc⟩
  · exact h.popped_answered b (by simpa [World.pop, update_of_ne hbc] using hb)

theorem map (h : w.Sound) (purpose : Purpose) (contents : List UInt8) :
    (w.map purpose contents).Sound :=
  ⟨h.started_lt, h.answered_started, h.popped_answered, h.ran_started, h.left_subset,
    h.left_unstarted, h.bears, h.wellFormed, h.worked⟩

theorem fill (h : w.Sound) (b : BufId) (contents : Memory) : (w.fill b contents).Sound :=
  ⟨h.started_lt, h.answered_started, h.popped_answered, h.ran_started, h.left_subset,
    h.left_unstarted, h.bears, h.wellFormed, h.worked⟩

end Sound

end EtSoc.World

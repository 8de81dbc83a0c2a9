import EtSoc.Verification.Tags.Invariant

/-! # The tag invariant from step to step

One lemma for each thing that happens to a tag: it is reserved, released, pushed,
collected, parked, discarded or given up. -/

namespace EtSoc

open Function

theorem freeTag_notMem {outstanding : Finset Tag} {start t : Tag} {n : ℕ} {candidate : Tag}
    (h : freeTag outstanding start n candidate = some t) : t ∉ outstanding := by
  induction n generalizing candidate with
  | zero => simp [freeTag] at h
  | succ n ih =>
    simp only [freeTag] at h
    split at h
    · simp_all
    · split at h
      · simp at h
      · exact ih h

namespace TagInv
variable {held fresh : List Tag} {b : Books} {t : Tag}

theorem reserve (h : TagInv held [] b) (ht : t ∉ b.outstanding) :
    TagInv held [t] { b with outstanding := insert t b.outstanding } := by
  have hnot := h.outstanding t
  simp only [List.not_mem_nil, or_false] at hnot
  exact { h with
    nodup := by simpa using ⟨by grind, h.nodup⟩
    outstanding := fun u => by
      simp only [Finset.mem_insert, h.outstanding u, List.not_mem_nil, List.mem_singleton]
      grind
    disjoint := fun u hu => by
      refine ⟨(h.disjoint u hu).1, ?_⟩
      simp only [List.mem_singleton]
      rintro rfl
      grind }

theorem unreserve (h : TagInv held [t] b) :
    TagInv held [] { b with outstanding := b.outstanding.erase t } := by
  have hnodup : t ∉ held ∧ held.Nodup := by simpa using h.nodup
  exact { h with
    nodup := hnodup.2
    outstanding := fun u => by
      have := h.outstanding u
      have hd := h.disjoint u
      simp only [List.mem_singleton, List.not_mem_nil, or_false, Finset.mem_erase] at *
      by_cases hut : u = t
      · subst hut
        grind
      · grind
    disjoint := fun u hu => ⟨(h.disjoint u hu).1, List.not_mem_nil⟩ }

theorem latest_accept {w : World} {sq : UInt16} {flags : UInt8} {cmd : Command} {u : Tag} {c : ℕ}
    (hu : u ≠ cmd.tagId) : (w.accept sq flags cmd).Latest u c ↔ w.Latest u c := by
  have hiff : ∀ (d : ℕ) (a : Accepted), a.cmd.tagId = u →
      ((w.accept sq flags cmd).accepted[d]? = some a ↔ w.accepted[d]? = some a) := by
    refine fun d a hau => ⟨fun hd => ?_, fun hd => ?_⟩
    · obtain hd | ⟨-, rfl⟩ := World.Sound.getElem?_accept hd
      · exact hd
      · exact absurd hau.symm hu
    · obtain ⟨hlt, -⟩ := List.getElem?_eq_some_iff.1 hd
      simpa [World.accept, List.getElem?_append_left hlt] using hd
  constructor
  · rintro ⟨⟨a, ha, hau⟩, hmax⟩
    exact ⟨⟨a, (hiff c a hau).1 ha, hau⟩, fun d a hd hau => hmax d a ((hiff d a hau).2 hd) hau⟩
  · rintro ⟨⟨a, ha, hau⟩, hmax⟩
    exact ⟨⟨a, (hiff c a hau).2 ha, hau⟩, fun d a hd hau => hmax d a ((hiff d a hau).1 hd) hau⟩

theorem latest_accept_self (w : World) (sq : UInt16) (flags : UInt8) (cmd : Command) :
    (w.accept sq flags cmd).Latest cmd.tagId w.accepted.length := by
  refine ⟨⟨⟨sq, flags, cmd, w.host⟩, by simp [World.accept], rfl⟩, fun d a hd _ => ?_⟩
  obtain ⟨hlt, -⟩ := List.getElem?_eq_some_iff.1 hd
  simp only [World.accept, List.length_append, List.length_singleton] at hlt
  omega

theorem accept {sq : UInt16} {flags : UInt8} {cmd : Command} (h : TagInv held [cmd.tagId] b) :
    TagInv (cmd.tagId :: held) []
      { b with
        world := b.world.accept sq flags cmd
        log := .pushed cmd.tagId b.world.accepted.length :: b.log } := by
  have hnodup : cmd.tagId ∉ held ∧ held.Nodup := by simpa using h.nodup
  have hfree : cmd.tagId ∉ b.abandoned := fun ha => (h.disjoint _ ha).2 (by simp)
  have hne : ∀ u ∈ held, u ≠ cmd.tagId := fun u hu => by
    rintro rfl
    exact hnodup.1 hu
  have hlt : ∀ u c, .pushed u c ∈ b.log → c < b.world.accepted.length := fun u c hc => by
    obtain ⟨a, ha, -⟩ := h.pushed u c hc
    exact (List.getElem?_eq_some_iff.1 ha).1
  refine ⟨h.sound.accept sq flags cmd, h.bears, by simpa using hnodup, fun u => ?_,
    fun u hu => ⟨?_, List.not_mem_nil⟩, fun c a ha hp => ?_, fun u hu => ?_, fun u hu => ?_,
    fun u rsp hs => ?_, fun hm u hu => ?_, fun u c hc => ?_, fun c rsp hc => ?_,
    .cons h.logOk ⟨h.unawaited _ hnodup.1, fun u c hc => hlt u c hc⟩ fun hm => (h.quiet hm).prompt _,
    fun _ => .of_ne (by simp), fun hcut =>
      (h.torn hcut).mono (List.prefix_append ..) (List.suffix_cons ..)⟩
  · rw [h.outstanding u]
    simp only [List.mem_cons, List.not_mem_nil, or_false]
    grind
  · rw [List.mem_cons]
    rintro (rfl | hmem)
    · exact hfree hu
    · exact (h.disjoint u hu).1 hmem
  · obtain ha | ⟨rfl, rfl⟩ := World.Sound.getElem?_accept ha
    · obtain ⟨hown, hlatest⟩ := h.unpopped c a ha hp
      have hne' : a.cmd.tagId ≠ cmd.tagId := fun heq => by
        rw [heq] at hown
        grind
      exact ⟨by simp only [List.mem_cons]; grind, (latest_accept hne').2 hlatest⟩
    · exact ⟨.inr (by simp), latest_accept_self ..⟩
  · rcases List.mem_cons.1 hu with rfl | hu
    · refine ⟨b.world.accepted.length, by simp [waiting], latest_accept_self .., fun _ hp => ?_⟩
      simp [World.accept, (h.sound.fresh (Nat.le_refl _)).2.2.1] at hp
    · obtain ⟨c, hw, hlatest, hstash⟩ := h.awaited u hu
      exact ⟨c, by simpa [waiting, (hne u hu).symm] using hw,
        (latest_accept (hne u hu)).2 hlatest, hstash⟩
  · rw [List.mem_cons, not_or] at hu
    simpa [waiting, Ne.symm hu.1] using h.unawaited u hu.2
  · obtain ⟨c, hw, hp⟩ := h.stashed u rsp hs
    have hu := hne u (h.held_of_stashed hs)
    exact ⟨c, by simpa [waiting, hu.symm] using hw, hp.cons _⟩
  · obtain ⟨c, a, ha, hau, hp⟩ := h.lingering hm u hu
    obtain ⟨hlt, -⟩ := List.getElem?_eq_some_iff.1 ha
    exact ⟨c, a, by simpa [World.accept, List.getElem?_append_left hlt] using ha, hau, hp⟩
  · rcases List.mem_cons.1 hc with heq | hc
    · obtain ⟨rfl, rfl⟩ := QueueEvent.pushed.inj heq
      exact ⟨⟨sq, flags, cmd, b.world.host⟩, by simp [World.accept], rfl⟩
    · obtain ⟨a, ha, hau⟩ := h.pushed u c hc
      exact ⟨a, by simpa [World.accept, List.getElem?_append_left (hlt u c hc)] using ha, hau⟩
  · obtain ⟨heq, -⟩ | hc := hc.of_cons
    · simp at heq
    · exact h.popped c rsp hc

/-- A collection starts, whose response is not there yet. -/
theorem collecting (h : TagInv held fresh b) (ht : t ∈ held) (hs : b.stash t = none) :
    TagInv held fresh { b with log := .collecting t :: b.log } := by
  refine { h with
    stashed := fun u rsp hu => by
      obtain ⟨c, hw, hp⟩ := h.stashed u rsp hu
      exact ⟨c, hw, hp.cons _⟩
    pushed := fun u c hc => h.pushed u c (by simpa using hc)
    popped := fun c rsp hc => h.popped c rsp (by simpa [Popped] using hc)
    logOk := .cons h.logOk trivial fun hm => (h.quiet hm).prompt _
    quiet := ?_
    torn := fun hcut => (h.torn hcut).cons _ }
  intro hwell u older c rsp hlog hw hp
  obtain ⟨heq, rfl⟩ := List.cons.inj hlog
  obtain rfl := QueueEvent.collecting.inj heq
  obtain ⟨c', hw', -, hstash⟩ := h.awaited t ht
  obtain rfl : c' = c := Option.some.inj (hw'.symm.trans hw)
  exact hstash hwell (h.popped c' rsp hp).1 hs

/-! ### A response is popped -/

section pop
variable {c : ℕ} {a : Accepted} {rsp : PoppedResponse}

theorem not_stashed (h : TagInv held fresh b) (hp : b.world.popped c = false)
    (hlatest : b.world.Latest t c) : b.stash t = none := by
  by_contra hs
  obtain ⟨rsp, hs⟩ := Option.ne_none_iff_exists'.1 hs
  obtain ⟨c', hw, hpop⟩ := h.stashed t rsp hs
  obtain ⟨c'', hw', hlatest', -⟩ := h.awaited t (h.held_of_stashed hs)
  obtain rfl : c' = c'' := Option.some.inj (hw.symm.trans hw')
  obtain rfl := hlatest.unique hlatest'
  simp [(h.popped c rsp hpop).1] at hp

/-- No other command is in flight under the tag of an unpopped one. -/
theorem tag_ne (h : TagInv held fresh b) (ha : b.world.accepted[c]? = some a)
    (hp : b.world.popped c = false) {d : ℕ} {a' : Accepted}
    (hd : (b.world.pop c).accepted[d]? = some a') (hpd : (b.world.pop c).popped d = false) :
    b.world.accepted[d]? = some a' ∧ b.world.popped d = false ∧ a'.cmd.tagId ≠ a.cmd.tagId := by
  have hdc : d ≠ c := by
    rintro rfl
    simp [World.pop] at hpd
  have hpd' : b.world.popped d = false := by simpa [World.pop, update_of_ne hdc] using hpd
  refine ⟨hd, hpd', fun heq => hdc ?_⟩
  have hlatest := (h.unpopped d a' hd hpd').2
  rw [heq] at hlatest
  exact hlatest.unique (h.unpopped c a ha hp).2

theorem popped_cons (h : TagInv held fresh b) (hr : b.world.answer c = some rsp.bytes)
    (ho : rsp.origin = some c) (d : ℕ) (rsp' : PoppedResponse)
    (hd : Popped (.popped rsp :: b.log) d rsp') :
    (b.world.pop c).popped d = true ∧ (b.world.pop c).answer d = some rsp'.bytes := by
  obtain ⟨heq, ho'⟩ | hd := hd.of_cons
  · obtain rfl := QueueEvent.popped.inj heq
    obtain rfl : c = d := Option.some.inj (ho.symm.trans ho')
    exact ⟨by simp [World.pop], hr⟩
  · refine ⟨?_, (h.popped d rsp' hd).2⟩
    by_cases hdc : d = c
    · simp [World.pop, hdc]
    · simpa [World.pop, update_of_ne hdc] using (h.popped d rsp' hd).1

theorem popped_ok (h : TagInv held fresh b) (hp : b.world.popped c = false)
    (ho : rsp.origin = some c) : EventOk b.log (.popped rsp) := by
  refine ⟨c, ho, fun rsp' hpop => ?_⟩
  simp [(h.popped c rsp' hpop).1] at hp

/-- A response nobody can read is popped. -/
theorem malformed (h : TagInv held fresh b) (hwell : b.world.machine.wellFormed = false)
    (ha : b.world.accepted[c]? = some a) (hr : b.world.answer c = some rsp.bytes)
    (hp : b.world.popped c = false) (ho : rsp.origin = some c) :
    TagInv held fresh { b with world := b.world.pop c, log := .popped rsp :: b.log } :=
  { h with
    sound := h.sound.pop hr
    unpopped := fun d a' hd hpd => by
      obtain ⟨hd, hpd, -⟩ := h.tag_ne ha hp hd hpd
      exact h.unpopped d a' hd hpd
    awaited := fun u hu => by
      obtain ⟨d, hw, hlatest, -⟩ := h.awaited u hu
      exact ⟨d, hw, hlatest, fun hm => by simp [World.pop, hwell] at hm⟩
    stashed := fun u rsp' hs => by
      obtain ⟨d, hw, hpop⟩ := h.stashed u rsp' hs
      exact ⟨d, hw, hpop.cons _⟩
    lingering := fun hm => by simp [World.pop, hwell] at hm
    pushed := fun u d hd => h.pushed u d (by simpa using hd)
    popped := h.popped_cons hr ho
    logOk := .cons h.logOk (h.popped_ok hp ho) fun hm => (h.quiet hm).prompt _
    quiet := fun _ => .of_ne (by simp)
    torn := fun hcut => (h.torn hcut).cons _ }

/-- The late response of an abandoned tag is discarded, and the tag released. -/
theorem discard (h : TagInv held [] b) (ha : b.world.accepted[c]? = some a)
    (hr : b.world.answer c = some rsp.bytes) (hp : b.world.popped c = false)
    (ho : rsp.origin = some c) (hab : a.cmd.tagId ∈ b.abandoned) :
    TagInv held []
      { b with
        world := b.world.pop c
        outstanding := b.outstanding.erase a.cmd.tagId
        abandoned := b.abandoned.erase a.cmd.tagId
        log := .popped rsp :: b.log } := by
  have hnot := (h.disjoint _ hab).1
  exact { h with
    sound := h.sound.pop hr
    outstanding := fun u => by
      have := h.outstanding u
      simp only [Finset.mem_erase]
      by_cases hu : u = a.cmd.tagId
      · subst hu
        simpa using hnot
      · grind
    disjoint := fun u hu => h.disjoint u (Finset.mem_of_mem_erase hu)
    unpopped := fun d a' hd hpd => by
      obtain ⟨hd, hpd, hne⟩ := h.tag_ne ha hp hd hpd
      obtain ⟨hown, hlatest⟩ := h.unpopped d a' hd hpd
      exact ⟨hown.imp (Finset.mem_erase_of_ne_of_mem hne) id, hlatest⟩
    awaited := fun u hu => by
      obtain ⟨d, hw, hlatest, hstash⟩ := h.awaited u hu
      refine ⟨d, hw, hlatest, fun hm hpd => hstash hm ?_⟩
      have hdc : d ≠ c := by
        rintro rfl
        obtain ⟨⟨a', ha', hau⟩, -⟩ := hlatest
        obtain rfl : a = a' := Option.some.inj (ha.symm.trans ha')
        exact hnot (hau ▸ hu)
      simpa [World.pop, update_of_ne hdc] using hpd
    stashed := fun u rsp' hs => by
      obtain ⟨d, hw, hpop⟩ := h.stashed u rsp' hs
      exact ⟨d, hw, hpop.cons _⟩
    lingering := fun hm u hu => by
      obtain ⟨d, a', hd, hau, hpd⟩ := h.lingering hm u (Finset.mem_of_mem_erase hu)
      have hdc : d ≠ c := by
        rintro rfl
        obtain rfl : a = a' := Option.some.inj (ha.symm.trans hd)
        exact (Finset.ne_of_mem_erase hu) hau.symm
      exact ⟨d, a', hd, hau, by simpa [World.pop, update_of_ne hdc] using hpd⟩
    pushed := fun u d hd => h.pushed u d (by simpa using hd)
    popped := h.popped_cons hr ho
    logOk := .cons h.logOk (h.popped_ok hp ho) fun hm => (h.quiet hm).prompt _
    quiet := fun _ => .of_ne (by simp)
    torn := fun hcut => (h.torn hcut).cons _ }

/-- A response to a waiter's command is kept for it. -/
theorem keep (h : TagInv held fresh b) (ha : b.world.accepted[c]? = some a)
    (hr : b.world.answer c = some rsp.bytes) (hp : b.world.popped c = false)
    (ho : rsp.origin = some c) (hheld : a.cmd.tagId ∈ held) :
    TagInv held fresh
      { b with
        world := b.world.pop c
        stash := update b.stash a.cmd.tagId (some rsp)
        log := .popped rsp :: b.log } := by
  obtain ⟨c', hw', hlatest', -⟩ := h.awaited _ hheld
  obtain rfl := hlatest'.unique (h.unpopped c a ha hp).2
  exact { h with
    sound := h.sound.pop hr
    unpopped := fun d a' hd hpd => by
      obtain ⟨hd, hpd, -⟩ := h.tag_ne ha hp hd hpd
      exact h.unpopped d a' hd hpd
    awaited := fun u hu => by
      obtain ⟨d, hw, hlatest, hstash⟩ := h.awaited u hu
      refine ⟨d, hw, hlatest, fun hm hpd => ?_⟩
      by_cases hua : u = a.cmd.tagId
      · simp [hua]
      · have hdc : d ≠ c' := by
          rintro rfl
          obtain ⟨⟨a', ha', hau⟩, -⟩ := hlatest
          obtain rfl : a = a' := Option.some.inj (ha.symm.trans ha')
          exact hua hau.symm
        have := hstash hm (by simpa [World.pop, update_of_ne hdc] using hpd)
        simpa [update_of_ne hua] using this
    stashed := fun u rsp' hs => by
      by_cases hua : u = a.cmd.tagId
      · subst hua
        obtain rfl : rsp = rsp' := by simpa using hs
        exact ⟨c', hw', by simp [Popped, ho]⟩
      · obtain ⟨d, hw, hpop⟩ := h.stashed u rsp' (by simpa [update_of_ne hua] using hs)
        exact ⟨d, hw, hpop.cons _⟩
    lingering := fun hm u hu => by
      obtain ⟨d, a', hd, hau, hpd⟩ := h.lingering hm u hu
      have hdc : d ≠ c' := by
        rintro rfl
        obtain rfl : a = a' := Option.some.inj (ha.symm.trans hd)
        exact (h.disjoint u hu).1 (hau ▸ hheld)
      exact ⟨d, a', hd, hau, by simpa [World.pop, update_of_ne hdc] using hpd⟩
    pushed := fun u d hd => h.pushed u d (by simpa using hd)
    popped := h.popped_cons hr ho
    logOk := .cons h.logOk (h.popped_ok hp ho) fun hm => (h.quiet hm).prompt _
    quiet := fun _ => .of_ne (by simp)
    torn := fun hcut => (h.torn hcut).cons _ }

end pop

/-! ### A waiter is done with its tag -/

theorem waiting_settled {l : List QueueEvent} {e : QueueEvent} {rsp : PoppedResponse}
    (he : e = .collected t rsp ∨ e = .gaveUp t) (u : Tag) :
    waiting (e :: l) u = if t = u then none else waiting l u := by
  obtain rfl | rfl := he <;> rfl

/-- A stashed response is returned to its waiter, or thrown away when the waiter gives up. -/
theorem settle {rsp : PoppedResponse} {l : List QueueEvent} {e : QueueEvent}
    (h : TagInv (t :: held) [] b) (hs : b.stash t = some rsp)
    (hl : l = b.log ∨ l = .collecting t :: b.log)
    (he : e = .collected t rsp ∨ (l = b.log ∧ e = .gaveUp t)) :
    TagInv held []
      { b with
        outstanding := b.outstanding.erase t
        stash := update b.stash t none
        log := e :: l } := by
  have hnodup : t ∉ held ∧ held.Nodup := by simpa using h.nodup
  have hne : ∀ u ∈ held, t ≠ u := fun u hu => by
    rintro rfl
    exact hnodup.1 hu
  obtain ⟨c, hw, hlatest, -⟩ := h.awaited t (by simp)
  obtain ⟨c', hw', hpop⟩ := h.stashed t rsp hs
  obtain rfl : c = c' := Option.some.inj (hw.symm.trans hw')
  have hwl : ∀ u, waiting l u = waiting b.log u := fun u => by
    obtain rfl | rfl := hl <;> rfl
  have hpl : ∀ d rsp', Popped l d rsp' ↔ Popped b.log d rsp' := fun d rsp' => by
    obtain rfl | rfl := hl <;> simp [Popped]
  have hpushl : ∀ u d, .pushed u d ∈ l ↔ .pushed u d ∈ b.log := fun u d => by
    obtain rfl | rfl := hl <;> simp
  have hcases : e = .collected t rsp ∨ e = .gaveUp t := he.imp id And.right
  have hw'' := waiting_settled (l := l) hcases
  have hlok : LogOk (b.world.machine.wellFormed = true) l := by
    obtain rfl | rfl := hl
    · exact h.logOk
    · exact .cons h.logOk trivial fun hm => (h.quiet hm).prompt _
  refine ⟨h.sound, h.bears, hnodup.2, fun u => ?_, fun u hu => ⟨?_, List.not_mem_nil⟩,
    fun d a hd hpd => ?_, fun u hu => ?_, fun u hu => ?_, fun u rsp' hsu => ?_, h.lingering,
    fun u d hd => ?_, fun d rsp' hd => ?_, .cons hlok ?_ fun hm => ?_, fun _ => .of_ne ?_,
    fun hcut => (h.torn hcut).mono List.prefix_rfl ?_⟩
  · have := h.outstanding u
    have hd := h.disjoint u
    simp only [List.mem_cons, List.not_mem_nil, or_false, Finset.mem_erase] at *
    by_cases hut : u = t
    · subst hut
      grind
    · grind
  · exact fun hmem => (h.disjoint u hu).1 (List.mem_cons_of_mem _ hmem)
  · obtain ⟨hown, hlatest'⟩ := h.unpopped d a hd hpd
    refine ⟨?_, hlatest'⟩
    rw [List.mem_cons] at hown
    have : a.cmd.tagId ≠ t := fun heq => by
      rw [heq] at hlatest'
      obtain rfl := hlatest'.unique hlatest
      simp [(h.popped d rsp hpop).1] at hpd
    grind
  · obtain ⟨d, hwd, hld, hstash⟩ := h.awaited u (List.mem_cons_of_mem _ hu)
    refine ⟨d, by simpa [hw'', hne u hu, hwl] using hwd, hld, ?_⟩
    simpa [update_of_ne (hne u hu).symm] using hstash
  · rw [hw'', hwl]
    split
    · rfl
    · rename_i hut
      exact h.unawaited u (by simpa using ⟨Ne.symm hut, hu⟩)
  · have hut : u ≠ t := by
      rintro rfl
      simp at hsu
    obtain ⟨d, hwd, hpd⟩ := h.stashed u rsp' (by simpa [update_of_ne hut] using hsu)
    refine ⟨d, by simpa [hw'', hut.symm, hwl] using hwd, ((hpl d rsp').2 hpd).cons _⟩
  · refine h.pushed u d ((hpushl u d).1 ?_)
    obtain rfl | rfl := hcases <;> simpa using hd
  · obtain ⟨heq, -⟩ | hd := hd.of_cons
    · obtain rfl | rfl := hcases <;> simp at heq
    · exact h.popped d rsp' ((hpl d rsp').1 hd)
  · obtain rfl | ⟨-, rfl⟩ := he
    · exact ⟨c, (hwl t).trans hw, (hpl c rsp).2 hpop⟩
    · trivial
  · obtain rfl | rfl := hl
    · exact (h.quiet hm).prompt _
    · intro tag older d rsp' hlog hwd hpd
      obtain ⟨heq, rfl⟩ := List.cons.inj hlog
      obtain rfl := QueueEvent.collecting.inj heq
      obtain rfl : c = d := Option.some.inj (hw.symm.trans hwd)
      obtain rfl | ⟨hcontra, -⟩ := he
      · rw [h.logOk.popped_unique hpop hpd]
      · exact absurd hcontra (by simp)
  · obtain rfl | rfl := hcases <;> simp
  · obtain rfl | rfl := hl
    · exact List.suffix_cons ..
    · exact (List.suffix_cons ..).trans (List.suffix_cons ..)

/-- The response just popped is the one awaited. -/
theorem take {c : ℕ} {a : Accepted} {rsp : PoppedResponse} (h : TagInv (a.cmd.tagId :: held) [] b)
    (ha : b.world.accepted[c]? = some a) (hr : b.world.answer c = some rsp.bytes)
    (hp : b.world.popped c = false) (ho : rsp.origin = some c) :
    TagInv held []
      { b with
        world := b.world.pop c
        outstanding := b.outstanding.erase a.cmd.tagId
        log := .collected a.cmd.tagId rsp :: .popped rsp :: b.log } := by
  have hnone := h.not_stashed hp (h.unpopped c a ha hp).2
  have hsame : update b.stash a.cmd.tagId none = b.stash := update_eq_self_iff.2 hnone.symm
  have := (h.keep ha hr hp ho (by simp)).settle (update_self ..) (.inl rfl) (.inl rfl)
  simpa only [update_idem, hsame] using this

/-- A waiter gives up on a command whose response did not come. -/
theorem giveUp (h : TagInv (t :: held) [] b) (hs : b.stash t = none) :
    TagInv held []
      { b with abandoned := insert t b.abandoned, log := .gaveUp t :: b.log } := by
  have hnodup : t ∉ held ∧ held.Nodup := by simpa using h.nodup
  have hne : ∀ u ∈ held, t ≠ u := fun u hu => by
    rintro rfl
    exact hnodup.1 hu
  exact { h with
    nodup := hnodup.2
    outstanding := fun u => by
      have := h.outstanding u
      simp only [List.mem_cons, List.not_mem_nil, or_false, Finset.mem_insert] at *
      grind
    disjoint := fun u hu => by
      refine ⟨fun hmem => ?_, List.not_mem_nil⟩
      rcases Finset.mem_insert.1 hu with rfl | hu
      · exact hnodup.1 hmem
      · exact (h.disjoint u hu).1 (List.mem_cons_of_mem _ hmem)
    unpopped := fun d a hd hpd => by
      obtain ⟨hown, hlatest⟩ := h.unpopped d a hd hpd
      simp only [List.mem_cons, Finset.mem_insert] at *
      exact ⟨by grind, hlatest⟩
    awaited := fun u hu => by
      obtain ⟨d, hw, hlatest, hstash⟩ := h.awaited u (List.mem_cons_of_mem _ hu)
      exact ⟨d, by simpa [waiting, hne u hu] using hw, hlatest, hstash⟩
    unawaited := fun u hu => by
      simp only [waiting]
      split
      · rfl
      · rename_i hut
        exact h.unawaited u (by simpa using ⟨Ne.symm hut, hu⟩)
    stashed := fun u rsp hsu => by
      obtain ⟨d, hw, hpop⟩ := h.stashed u rsp hsu
      have hut : t ≠ u := by
        rintro rfl
        simp [hs] at hsu
      exact ⟨d, by simpa [waiting, hut] using hw, hpop.cons _⟩
    lingering := fun hm u hu => by
      rcases Finset.mem_insert.1 hu with rfl | hu
      · obtain ⟨d, -, hlatest, hstash⟩ := h.awaited u (by simp)
        obtain ⟨⟨a, ha, hau⟩, -⟩ := hlatest
        refine ⟨d, a, ha, hau, ?_⟩
        by_contra hpd
        exact hstash hm (by simpa using hpd) hs
      · exact h.lingering hm u hu
    pushed := fun u d hd => h.pushed u d (by simpa using hd)
    popped := fun d rsp hd => h.popped d rsp (by simpa [Popped] using hd)
    logOk := .cons h.logOk trivial fun hm => (h.quiet hm).prompt _
    quiet := fun _ => .of_ne (by simp)
    torn := fun hcut => (h.torn hcut).cons _ }

end TagInv

end EtSoc

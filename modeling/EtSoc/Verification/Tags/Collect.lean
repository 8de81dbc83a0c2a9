import EtSoc.Verification.Tags.Ready

/-! # Collecting and abandoning tags -/

namespace EtSoc

open Function Program

variable {P : World → Prop} {fr : Frame} {held : List Tag} {tag : Tag}

/-! ## The completion queue -/

/-- The transport calls leave alone what is neither the device nor the script. -/
theorem consult_keeps {τ : Type} {f : Sys → τ}
    (hf : ∀ s script world, f { s with script := script, world := world } = f s) :
    Keeps f consult := by
  intro s
  unfold consult
  split
  · rfl
  · exact hf ..

theorem decision_keeps {τ : Type} {f : Sys → τ} (answer : Answer) : Keeps f (decision answer) := by
  cases answer <;> exact fun _ => rfl

theorem waitReady_keeps {τ : Type} {f : Sys → τ}
    (hf : ∀ s script world, f { s with script := script, world := world } = f s) :
    Keeps f waitReady := .bind (consult_keeps hf) decision_keeps

theorem expired_keeps {τ : Type} {f : Sys → τ}
    (hf : ∀ s script world, f { s with script := script, world := world } = f s) :
    Keeps f expired := by
  refine .bind (consult_keeps hf) fun answer => ?_
  cases answer <;> exact .pure

theorem popCq_keeps : Keeps Sys.dev popCq := by
  refine .bind (consult_keeps fun _ _ _ => rfl) fun answer => .bind .read fun w => ?_
  cases answer with
  | response c cqIndex =>
    simp only
    split
    · split
      · exact .pure
      · exact fun _ => rfl
    · exact .pure
  | forged bytes cqIndex =>
    simp only
    split
    · exact .pure
    · exact fun _ => rfl
  | fail e => exact .throw
  | _ => exact .pure

/-- The response `rsp` to the command `c` can be popped. -/
structure Poppable (w : World) (c : ℕ) (a : Accepted) (rsp : PoppedResponse) : Prop where
  accepted : w.accepted[c]? = some a
  answer : w.answer c = some rsp.bytes
  unpopped : w.popped c = false
  origin : rsp.origin = some c

/-- The response `rsp` was popped just now. -/
def Pops (P : World → Prop) (fr : Frame) (held : List Tag) (rsp : PoppedResponse) (s : Sys) :
    Prop :=
  ∃ s₀ c a, Ready P fr held [] s₀ ∧ Poppable s₀.world c a rsp ∧
    s = { s₀ with world := s₀.world.pop c, log := .popped rsp :: s₀.log }

theorem popCq_spec (hP : Patient P) :
    Triple (Ready P fr held []) popCq
      (Ends (fun r s => match r with
          | some rsp => Pops P fr held rsp s
          | none => Ready P fr held [] s)
        fun e s => Ready P fr held [] s ∧ dmaMayBeInFlight e = true) := by
  refine .bind (consult_spec hP) fun answer => .read_bind fun w => ?_
  cases answer with
  | response c cqIndex =>
    simp only
    split
    · rename_i bytes hanswer
      refine .ite (fun _ => .pure fun _ h => h.1) fun hpopped s hs => ?_
      obtain ⟨hs, rfl⟩ := hs
      have hlt := hs.tags.sound.answered_lt hanswer
      exact ⟨s, c, s.world.accepted[c], hs,
        ⟨List.getElem?_eq_getElem hlt, hanswer, by simpa using hpopped, rfl⟩, rfl⟩
    · exact .pure fun _ h => h.1
  | forged bytes cqIndex =>
    refine .ite (fun _ => .pure fun _ h => h.1) fun hbears s hs => ?_
    obtain ⟨hs, rfl⟩ := hs
    exact absurd hs.tags.bears hbears
  | fail e => exact .throw fun s hs => ⟨hs.1, inFlight_toError e⟩
  | _ => exact .pure fun _ h => h.1

theorem Pops.inOrder {rsp : PoppedResponse} {s : Sys} (h : Pops P fr held rsp s) : InOrder s := by
  obtain ⟨s₀, c, a, hs, hc, rfl⟩ := h
  have hcons := hs.tags.popped_cons hc.answer hc.origin
  refine ⟨fun t d hd => hs.tags.pushed t d (by simpa [Sys.books] using hd),
    fun d rsp' hd => (hcons d rsp' hd).2,
    .cons hs.tags.logOk (hs.tags.popped_ok hc.unpopped hc.origin) fun hm =>
      (hs.tags.quiet hm).prompt _, fun _ => .of_ne (by simp)⟩

theorem Pops.pop {rsp : PoppedResponse} {s : Sys} (h : Pops P fr held rsp s) (hP : Patient P) :
    P s.world ∧ s.frame = fr := by
  obtain ⟨s₀, c, a, hs, hc, rfl⟩ := h
  exact ⟨hP.pop _ _ _ hs.tags.sound hc.answer hs.world, hs.frame⟩

/-- The tag of a popped response is that of its command. -/
theorem Poppable.tagId_eq {w : World} {c : ℕ} {a : Accepted} {rsp : PoppedResponse}
    (h : Poppable w c a rsp) (hs : w.Sound) (hb : w.machine.bearsTag = true)
    {hdr : ResponseHeader} (hh : ResponseHeader.parse rsp.bytes = some hdr) :
    hdr.tagId = a.cmd.tagId :=
  hs.bears hb c a rsp.bytes h.accepted h.answer hdr hh

/-! ## The loop -/

theorem park_spec (hP : Patient P) {rsp : PoppedResponse} {hdr : ResponseHeader}
    (hh : ResponseHeader.parse rsp.bytes = some hdr) (hne : hdr.tagId ≠ tag)
    {E : Error → Sys → Prop} :
    Triple (fun s => Pops P fr held rsp s ∧ s.dev.stash tag = none) (park hdr.tagId rsp)
      (Ends (fun _ s => Ready P fr held [] s ∧ s.dev.stash tag = none) E) := by
  refine .read_bind fun dev => .fix fun s hs => ?_
  obtain ⟨⟨hpops, hstash⟩, rfl⟩ := hs
  have ⟨hworld, hframe⟩ := hpops.pop hP
  obtain ⟨s₀, c, a, hs₀, hc, rfl⟩ := hpops
  have htag := hc.tagId_eq hs₀.tags.sound hs₀.tags.bears hh
  have hown := (hs₀.tags.unpopped c a hc.accepted hc.unpopped).1
  refine .ite (fun hab => ?_) fun hab => .ite (fun hout => ?_) fun hout => ?_
  · refine .modify fun s hs => ?_
    subst hs
    rw [htag] at hab ⊢
    exact ⟨⟨hs₀.tags.discard hc.accepted hc.answer hc.unpopped hc.origin hab, hworld, hframe⟩,
      hstash⟩
  · refine .modify fun s hs => ?_
    subst hs
    refine ⟨⟨?_, hworld, hframe⟩, ?_⟩
    · rw [htag] at hab ⊢
      exact hs₀.tags.keep hc.accepted hc.answer hc.unpopped hc.origin (hown.resolve_left hab)
    · have hother : update s₀.dev.stash hdr.tagId (some rsp) tag = none := by
        rw [update_of_ne hne.symm]
        exact hstash
      exact hother
  · refine absurd ?_ hout
    rw [htag]
    exact (hs₀.tags.outstanding _).2 (hown.imp id .inl)

/-- What the state is when a waiter has its response in hand, its tag still reserved. -/
def Received (P : World → Prop) (fr : Frame) (held : List Tag) (tag : Tag) (rsp : PoppedResponse)
    (s : Sys) : Prop :=
  ∃ s₀ c a, Ready P fr (tag :: held) [] s₀ ∧ Poppable s₀.world c a rsp ∧ a.cmd.tagId = tag ∧
    s = { s₀ with world := s₀.world.pop c, log := .popped rsp :: s₀.log }

theorem malformed_pops (hP : Patient P) {rsp : PoppedResponse} {s : Sys}
    (h : Pops P fr held rsp s) (hh : ResponseHeader.parse rsp.bytes = none) :
    Ready P fr held [] s := by
  have ⟨hworld, hframe⟩ := h.pop hP
  obtain ⟨s₀, c, a, hs₀, hc, rfl⟩ := h
  refine ⟨?_, hworld, hframe⟩
  have hwell : s₀.world.machine.wellFormed = false := by
    by_contra hw
    have hlen := hs₀.tags.sound.wellFormed (by simpa [Sys.books] using hw) c rsp.bytes hc.answer
    simpa [hh] using ResponseHeader.parse_isSome hlen
  exact hs₀.tags.malformed hwell hc.accepted hc.answer hc.unpopped hc.origin

theorem collectLoop_spec (hP : Patient P) (timeout : Option Duration) (operation : String) (n : ℕ) :
    Triple (fun s => Ready P fr (tag :: held) [] s ∧ s.dev.stash tag = none)
      (collectLoop tag timeout operation n)
      (Ends (Received P fr held tag)
        fun e s => (Ready P fr (tag :: held) [] s ∧ s.dev.stash tag = none) ∧
          dmaMayBeInFlight e = true) := by
  induction n with
  | zero => exact .block fun _ h => h.1.inOrder
  | succ n ih =>
    have hwait : Triple (fun s => Ready P fr (tag :: held) [] s ∧ s.dev.stash tag = none)
        (do let _ ← waitReady; collectLoop tag timeout operation n)
        (Ends (Received P fr held tag)
          fun e s => (Ready P fr (tag :: held) [] s ∧ s.dev.stash tag = none) ∧
            dmaMayBeInFlight e = true) := by
      refine .bind (R := fun _ s => Ready P fr (tag :: held) [] s ∧ s.dev.stash tag = none)
        (((waitReady_keeps fun _ _ _ => rfl).frame (f := Sys.dev) (waitReady_spec hP)
          fun d => d.stash tag = none).conseq
          (fun _ h => h) (fun _ _ h => h) (fun _ _ h => ⟨⟨h.1.1, h.2⟩, h.1.2⟩) fun _ h => h)
        fun _ => ih
    refine .bind ((popCq_keeps.frame (popCq_spec hP) fun d => d.stash tag = none).conseq
      (fun _ h => h) (fun _ _ h => h) (fun _ _ h => ⟨⟨h.1.1, h.2⟩, h.1.2⟩) fun _ h => h)
      fun r => ?_
    cases r with
    | some rsp =>
      simp only
      split
      · rename_i hdr hh
        refine .ite (fun htag => .pure fun s hs => ?_) fun htag => ?_
        · obtain ⟨s₀, c, a, hs₀, hc, hs⟩ := hs.1
          exact ⟨s₀, c, a, hs₀, hc,
            (hc.tagId_eq hs₀.tags.sound hs₀.tags.bears hh).symm.trans htag, hs⟩
        · exact .bind (park_spec hP hh htag) fun _ => ih
      · rename_i hh
        exact .throw fun s hs => ⟨⟨malformed_pops hP hs.1 hh, hs.2⟩, rfl⟩
    | none =>
      cases timeout with
      | none => exact hwait
      | some limit =>
        refine .bind ((expired_keeps fun _ _ _ => rfl).frame (f := Sys.dev)
          (expired_spec hP (E := fun _ _ => False)) (fun d => d.stash tag = none) |>.conseq
            (fun _ h => h) (fun _ _ h => h) (fun _ _ h => h.1.elim) fun _ h => h)
          fun late => .ite (fun _ => ?_) fun _ => hwait
        exact .throw fun _ h => ⟨h, rfl⟩

/-! ## Collecting -/

/-- `rsp` is the response to the last command pushed under `tag`. -/
def World.Returned (w : World) (tag : Tag) (rsp : PoppedResponse) : Prop :=
  ∃ c, w.Latest tag c ∧ w.popped c = true ∧ w.answer c = some rsp.bytes ∧ rsp.origin = some c

/-- The state once the waiter of `tag` has released it. -/
def Sys.collected (s : Sys) (tag : Tag) (rsp : PoppedResponse) : Sys :=
  { s with
    dev := { s.dev with outstanding := s.dev.outstanding.erase tag }
    log := .collected tag rsp :: s.log }

theorem Received.collected (hP : Patient P) {rsp : PoppedResponse} {s : Sys}
    (h : Received P fr held tag rsp s) :
    Ready P fr held [] (s.collected tag rsp) ∧ s.world.Returned tag rsp := by
  obtain ⟨s₀, c, a, hs₀, hc, rfl, rfl⟩ := h
  refine ⟨⟨hs₀.tags.take hc.accepted hc.answer hc.unpopped hc.origin,
    hP.pop _ _ _ hs₀.tags.sound hc.answer hs₀.world, hs₀.frame⟩, c, ?_, ?_, hc.answer,
    hc.origin⟩
  · exact (hs₀.tags.unpopped c a hc.accepted hc.unpopped).2
  · simp [World.pop]

theorem collectResponseInner_spec (hP : Patient P) (timeout : Option Duration)
    (operation : String) :
    Triple (fun s => ∃ s₀, Ready P fr (tag :: held) [] s₀ ∧
        s = { s₀ with log := .collecting tag :: s₀.log })
      (collectResponseInner tag timeout operation)
      (Ends (fun rsp s => Ready P fr held [] (s.collected tag rsp) ∧ s.world.Returned tag rsp)
        fun e s => (Ready P fr (tag :: held) [] s ∧ s.dev.stash tag = none) ∧
          dmaMayBeInFlight e = true) := by
  refine .read_bind fun dev => .fix fun s hs => ?_
  obtain ⟨⟨s₀, hs₀, rfl⟩, rfl⟩ := hs
  split
  · rename_i rsp hstash
    refine .modify_bind (R := fun s => Ready P fr held [] (s.collected tag rsp) ∧
      s.world.Returned tag rsp) (fun s hs => ?_) ?_
    rotate_left
    · exact .pure fun _ h => h
    subst hs
    obtain ⟨c, hw, hpop⟩ := hs₀.tags.stashed tag rsp hstash
    obtain ⟨c', hw', hlatest, -⟩ := hs₀.tags.awaited tag (by simp)
    obtain rfl : c = c' := Option.some.inj (hw.symm.trans hw')
    exact ⟨⟨hs₀.tags.settle hstash (.inr rfl) (.inl rfl), hs₀.world, hs₀.frame⟩,
      c, hlatest, (hs₀.tags.popped c rsp hpop).1, (hs₀.tags.popped c rsp hpop).2, hpop.2⟩
  · rename_i hstash
    refine .read_bind fun n => ?_
    refine ((collectLoop_spec hP timeout operation n).conseq (fun s hs => ?_)
      (fun _ _ h => h.collected hP) (fun _ _ h => h) fun _ h => h)
    obtain ⟨rfl, -⟩ := hs
    exact ⟨⟨hs₀.tags.collecting (by simp) hstash, hs₀.world, hs₀.frame⟩, hstash⟩

/-- `tag` is still the one awaited, however a step of its collection ends. -/
def Awaits (tag : Tag) {α : Type} : Post Sys Error α :=
  ⟨fun _ s => awaitedTag s.log = some tag, fun _ s => awaitedTag s.log = some tag,
    fun _ s => awaitedTag s.log = some tag⟩

theorem awaits {α : Type} {m : M α} (hm : Keeps Sys.log m) :
    Triple (fun s => awaitedTag s.log = some tag) m (Awaits tag) :=
  hm.triple fun log => awaitedTag log = some tag

/-- While a tag is awaited, responses are popped, and nothing else is recorded. -/
theorem popCq_awaits : Triple (fun s => awaitedTag s.log = some tag) popCq (Awaits tag) := by
  refine .bind (awaits (consult_keeps fun _ _ _ => rfl)) fun answer => .read_bind fun w => ?_
  cases answer with
  | response c cqIndex =>
    simp only
    split
    · exact .ite (fun _ => .pure fun _ h => h.1) fun _ _ h => h.1
    · exact .pure fun _ h => h.1
  | forged bytes cqIndex => exact .ite (fun _ => .pure fun _ h => h.1) fun _ _ h => h.1
  | fail e => exact .throw fun _ h => h.1
  | _ => exact .pure fun _ h => h.1

theorem park_keeps {other : Tag} {rsp : PoppedResponse} : Keeps Sys.log (park other rsp) := by
  refine .bind .read fun dev => ?_
  split
  · exact .modify fun _ => rfl
  · split
    · exact .modify fun _ => rfl
    · exact .pure

theorem collectLoop_awaits (timeout : Option Duration) (operation : String) (n : ℕ) :
    Triple (fun s => awaitedTag s.log = some tag) (collectLoop tag timeout operation n)
      (Awaits tag) := by
  induction n with
  | zero => exact .block fun _ h => h
  | succ n ih =>
    have hwait : Triple (fun s => awaitedTag s.log = some tag)
        (do let _ ← waitReady; collectLoop tag timeout operation n) (Awaits tag) :=
      .bind (awaits (waitReady_keeps fun _ _ _ => rfl)) fun _ => ih
    refine .bind popCq_awaits fun r => ?_
    cases r with
    | some rsp =>
      simp only
      split
      · exact .ite (fun _ => .pure fun _ h => h) fun _ => .bind (awaits park_keeps) fun _ => ih
      · exact .throw fun _ h => h
    | none =>
      cases timeout with
      | none => exact hwait
      | some limit =>
        refine .bind (awaits (expired_keeps fun _ _ _ => rfl)) fun late => .ite (fun _ => ?_)
          fun _ => hwait
        exact .throw fun _ h => h

theorem collectResponseInner_awaits (timeout : Option Duration) (operation : String) :
    Triple (fun s => awaitedTag s.log = some tag) (collectResponseInner tag timeout operation)
      (Awaits tag) := by
  refine .read_bind fun dev => ?_
  split
  · exact .modify_bind (R := fun s : Sys => awaitedTag s.log = some tag) (fun _ h => h.1)
      (.pure fun _ h => h)
  · exact .read_bind fun n => (collectLoop_awaits timeout operation n).pre fun _ h => h.1.1

/-- What a collection returns, and how it ends, is what the record says. -/
theorem collectResponse_records {P : Sys → Prop} (tag : Tag) (timeout : Option Duration)
    (operation : String) : Triple P (collectResponse tag timeout operation)
      ⟨fun rsp s => s.log.head? = some (.collected tag rsp),
        fun _ s => ∃ older, s.log = .gaveUp tag :: older ∧ awaitedTag older = some tag,
        fun _ _ => True⟩ := by
  refine .modify_bind (R := fun s => awaitedTag s.log = some tag) (fun _ _ => rfl) (.attempt_bind
    (R := fun _ _ => True) (E := fun _ (s : Sys) => awaitedTag s.log = some tag)
    ((collectResponseInner_awaits timeout operation).conseq (fun _ h => h) (fun _ _ _ => trivial)
      (fun _ _ h => h) fun _ _ => trivial)
    (fun rsp => ?_) fun e => ?_)
  · exact .bind (R := fun _ _ => True) (.modify fun _ _ => trivial) fun _ =>
      .modify_bind (R := fun s => s.log.head? = some (.collected tag rsp)) (fun _ _ => rfl)
        (.pure fun _ h => h)
  · exact .modify_bind (R := fun s => awaitedTag s.log = some tag) (fun _ h => h)
      (.modify_bind (R := fun s => ∃ older, s.log = .gaveUp tag :: older ∧
        awaitedTag older = some tag) (fun s h => ⟨s.log, rfl, h⟩) (.throw fun _ h => h))

/-- A waiter gets the response to its command, or the wait for that command has failed. -/
theorem collectResponse_spec (hP : Patient P) (timeout : Option Duration) (operation : String) :
    Triple (Ready P fr (tag :: held) []) (collectResponse tag timeout operation)
      (Ends (fun rsp s => (Ready P fr held [] s ∧ s.world.Returned tag rsp) ∧
          s.log.head? = some (.collected tag rsp))
        fun e s => (Ready P fr held [] s ∧ dmaMayBeInFlight e = true) ∧
          ∃ c, s.world.Latest tag c ∧ failedWait s.log = some c) := by
  have hready : Triple (Ready P fr (tag :: held) []) (collectResponse tag timeout operation)
      (Ends (fun rsp s => Ready P fr held [] s ∧ s.world.Returned tag rsp)
        fun e s => (Ready P fr held [] s ∧ dmaMayBeInFlight e = true) ∧
          ∃ c, s.world.Latest tag c ∧ waiting s.log.tail tag = some c) := by
    refine .modify_bind (fun s hs => ⟨s, hs, rfl⟩) (.attempt_bind
      (collectResponseInner_spec hP timeout operation) (fun rsp _ h => h) fun e => ?_)
    refine .intro (fun _ h => h.2) fun he => ?_
    refine .modify_bind (R := fun s => Ready P fr held [] { s with log := .gaveUp tag :: s.log } ∧
        ∃ c, s.world.Latest tag c ∧ waiting s.log tag = some c) (fun s hs => ⟨?_, ?_⟩)
      (.modify_bind (R := fun s => Ready P fr held [] s ∧
        ∃ c, s.world.Latest tag c ∧ waiting s.log.tail tag = some c) (fun _ h => h)
        (.throw fun _ h => ⟨⟨h.1, he⟩, h.2⟩))
    · exact ⟨hs.1.1.tags.giveUp hs.1.2, hs.1.1.world, hs.1.1.frame⟩
    · obtain ⟨c, hw, hlatest, -⟩ := hs.1.1.tags.awaited tag (by simp)
      exact ⟨c, hlatest, hw⟩
  refine (hready.both (collectResponse_records (P := fun _ => True) tag timeout operation)).conseq
    (fun _ h => ⟨h, trivial⟩) (fun _ _ h => h) (fun e s h => ⟨h.1.1, ?_⟩) fun _ h => h.1
  obtain ⟨⟨-, c, hlatest, hwait⟩, older, hlog, hawaited⟩ := h
  rw [hlog] at hwait
  refine ⟨c, hlatest, ?_⟩
  rw [hlog, failedWait, if_pos hawaited]
  exact hwait

/-! ## Abandoning -/

theorem abandon_spec {E : Error → Sys → Prop} :
    Triple (Ready P fr (tag :: held) []) (abandon tag)
      (Ends (fun _ => Ready P fr held []) E) := by
  refine .read_bind fun dev => ?_
  split
  · rename_i rsp hstash
    intro s ⟨hs, hdev⟩
    subst hdev
    exact ⟨hs.tags.settle hstash (.inl rfl) (.inr ⟨rfl, rfl⟩), hs.world, hs.frame⟩
  · rename_i hstash
    intro s ⟨hs, hdev⟩
    subst hdev
    exact ⟨hs.tags.giveUp hstash, hs.world, hs.frame⟩

theorem abandonEach_spec {E : Error → Sys → Prop} (tags : List Tag) :
    Triple (Ready P fr (tags ++ held) []) (abandonEach tags)
      (Ends (fun _ => Ready P fr held []) E) := by
  induction tags with
  | nil => exact .pure fun _ h => h
  | cons tag tags ih => exact .bind abandon_spec fun _ => ih

theorem abandonAll_spec {E : Error → Sys → Prop} :
    Triple (Ready P fr (fr.pending ++ held) []) abandonAll
      (Ends (fun _ => Ready P { fr with pending := [] } held []) E) := by
  refine .read_bind fun tags => .intro (p := tags = fr.pending)
    (fun s hs => by rw [← hs.2, ← hs.1.frame]; rfl) fun htags => ?_
  subst htags
  refine .modify_bind (R := Ready P { fr with pending := [] } (fr.pending ++ held) [])
    (fun s hs => ⟨hs.1.tags, hs.1.world, ?_⟩) (abandonEach_spec _)
  rw [← hs.1.frame]
  rfl

end EtSoc

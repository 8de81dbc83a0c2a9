import EtSoc.Verification.Dma.Push

/-! # Awaiting the commands of a chunk -/

namespace EtSoc

open Function Program

variable {B : World → Prop} {acc : List Accepted} {fr : Frame} {held rest : List Tag}
  {timeout : Option Duration} {command : String}

/-- Nothing that is awaited is lost sight of: every command from `lo` on was popped, or
is in flight under one of `tags`, unless the error says that it may be. -/
def Accounted (acc : List Accepted) (lo : ℕ) (tags : List Tag) (e : Error) (w : World) : Prop :=
  ∀ c a, lo ≤ c → acc[c]? = some a →
    w.popped c = true ∨ a.cmd.tagId ∈ tags ∨ dmaMayBeInFlight e = true

theorem Accounted.mono {acc : List Accepted} {lo : ℕ} {tags tags' : List Tag} {e : Error}
    {w w' : World} (h : Accounted acc lo tags e w) (ht : tags ⊆ tags')
    (hp : ∀ c, w.popped c = true → w'.popped c = true) : Accounted acc lo tags' e w' :=
  fun c a hc ha => (h c a hc ha).imp (hp c) (.imp_left (ht ·))

/-- The wait for `c` failed; if the error does not say that commands may be in flight, then
because `c` was refused. -/
structure Fails (c : ℕ) (e : Error) (log : List QueueEvent) : Prop where
  failed : failedWait log = some c
  refused : dmaMayBeInFlight e = false → refused log = some c

theorem awaitTag_spec {P : World → Prop} {tag : Tag} {c : ℕ} (hP : Patient P)
    (hlatest : ∀ w, P w → w.Latest tag c) :
    Triple (Ready P fr (tag :: held) []) (awaitTag timeout command tag)
      (Ends (fun _ => Ready (fun w => P w ∧ w.Completed c) fr held [])
        fun e s => Ready (fun w => P w ∧ (w.popped c = true ∨ dmaMayBeInFlight e = true))
          fr held [] s ∧ Fails c e s.log) := by
  refine .bind ((collectResponse_spec hP timeout _).conseq (fun _ h => h) (fun _ _ h => h)
    (fun e s h => ?_) fun _ h => h) fun rsp => ?_
  · obtain ⟨⟨hs, he⟩, c', hlatest', hfailed⟩ := h
    obtain rfl := hlatest'.unique (hlatest _ hs.world)
    exact ⟨⟨hs.tags, ⟨hs.world, .inr he⟩, hs.frame⟩, hfailed, fun hnot => by simp [he] at hnot⟩
  have hreturned : ∀ s, Ready P fr held [] s ∧ s.world.Returned tag rsp →
      (s.world.popped c = true ∧ s.world.answer c = some rsp.bytes) ∧ rsp.origin = some c := by
    rintro s ⟨hs, c', hlatest', hp, hr, horigin⟩
    obtain rfl := hlatest'.unique (hlatest _ hs.world)
    exact ⟨⟨hp, hr⟩, horigin⟩
  split
  · rename_i hstatus
    refine .throw fun s hs => ?_
    obtain ⟨⟨hp, -⟩, horigin⟩ := hreturned s hs.1
    refine ⟨⟨hs.1.1.tags, ⟨hs.1.1.world, .inl hp⟩, hs.1.1.frame⟩, ?_, fun hnot => by
      simp [dmaMayBeInFlight] at hnot⟩
    rw [failedWait_of_collected hs.2 (by simp [hstatus]), horigin]
  · rename_i status hstatus
    refine .ite (fun hne => .throw fun s hs => ?_) fun hzero => .pure fun s hs => ?_
    · obtain ⟨⟨hp, -⟩, horigin⟩ := hreturned s hs.1
      refine ⟨⟨hs.1.1.tags, ⟨hs.1.1.world, .inl hp⟩, hs.1.1.frame⟩, ?_, fun _ => ?_⟩
      · rw [failedWait_of_collected hs.2 (by simpa [hstatus] using hne), horigin]
      · rw [refused_of_collected hs.2 hstatus hne, horigin]
    · obtain ⟨⟨hp, hr⟩, -⟩ := hreturned s hs.1
      refine ⟨hs.1.1.tags, ⟨hs.1.1.world, hp, rsp.bytes, hr, ?_⟩, hs.1.1.frame⟩
      rw [World.success, hstatus]
      exact congrArg some (not_not.1 hzero)

/-- The commands `[lo, hi)` were all answered with success. -/
def World.CompletedFrom (w : World) (lo hi : ℕ) : Prop := ∀ c, lo ≤ c → c < hi → w.Completed c

theorem patient_completedFrom (lo hi : ℕ) : Patient fun w => w.CompletedFrom lo hi :=
  ⟨fun w d hs h c hlo hhi => (patient_completed c).step w d hs (h c hlo hhi),
    fun w d rsp hs hr h c hlo hhi => (patient_completed c).pop w d rsp hs hr (h c hlo hhi)⟩

/-- Of the commands `[lo, lo + count)`, all but the first go on with the chunk of the one
before. -/
def Chunked (acc : List Accepted) (lo count : ℕ) : Prop :=
  ∀ i, 0 < i → i < count → ∃ a, acc[lo + i]? = some a ∧ a.continues = true

theorem OneChunk.chunked {own : List Accepted} (h : OneChunk own) (acc more : List Accepted) :
    Chunked (acc ++ own ++ more) acc.length own.length := by
  intro i hi hlt
  refine ⟨own[i], ?_, h i _ hi (List.getElem?_eq_getElem hlt)⟩
  rw [List.append_assoc, List.getElem?_append_right (Nat.le_add_right ..), Nat.add_sub_cancel_left,
    List.getElem?_append_left hlt, List.getElem?_eq_getElem hlt]

theorem Chunked.tail {lo count : ℕ} (h : Chunked acc lo (count + 1)) : Chunked acc (lo + 1) count := by
  intro i hi hlt
  have := h (i + 1) (Nat.succ_pos i) (Nat.succ_lt_succ hlt)
  rwa [show lo + (i + 1) = lo + 1 + i by omega] at this

theorem awaitEach_spec (hB : Patient B) (tags : List Tag) :
    ∀ lo, (∀ i t, tags[i]? = some t → ∀ w : World, w.accepted = acc → w.Latest t (lo + i)) →
      Chunked acc lo tags.length →
      Triple (Ready (fun w => B w ∧ w.accepted = acc) fr (tags ++ held) [])
        (awaitEach timeout command tags)
        (Ends (fun _ => Ready (fun w => (B w ∧ w.accepted = acc) ∧
            w.CompletedFrom lo (lo + tags.length)) fr held [])
          fun e s => ∃ k < tags.length, Fails (lo + k) e s.log ∧
            Ready (fun w => (B w ∧ w.accepted = acc) ∧ w.CompletedFrom lo (lo + k) ∧
              (w.popped (lo + k) = true ∨ dmaMayBeInFlight e = true))
            { fr with cut := tags.drop (k + 1) ++ fr.cut } (tags.drop (k + 1) ++ held) [] s) := by
  induction tags generalizing B with
  | nil =>
    intro lo _ _
    refine .pure fun s hs => ⟨hs.tags, ⟨hs.world, fun c hlo hhi => ?_⟩, hs.frame⟩
    simp only [List.length_nil] at hhi
    omega
  | cons tag tags ih =>
    intro lo hlink hchunked
    have hP := hB.and (.accepted acc)
    refine .attempt_bind (awaitTag_spec hP fun w hw => hlink 0 tag rfl w hw.2) (fun u => ?_)
      fun e => ?_
    · have hnext := ih (B := fun w => B w ∧ w.Completed lo) (hB.and (patient_completed lo))
        (lo + 1) (fun i t hi w hw => by
          have := hlink (i + 1) t (by simpa using hi) w hw
          rwa [show lo + 1 + i = lo + (i + 1) by omega]) hchunked.tail
      refine hnext.conseq (fun s hs => hs.mono fun w h => ⟨⟨h.1.1, h.2⟩, h.1.2⟩)
        (fun _ s hs => hs.mono fun w h => ⟨⟨h.1.1.1, h.1.2⟩, fun c hlo hhi => ?_⟩)
        (fun e s hs => ?_) fun _ h => h
      · obtain rfl | hlo := Nat.eq_or_lt_of_le hlo
        · exact h.1.1.2
        · exact h.2 c hlo (by simp only [List.length_cons] at hhi; omega)
      · obtain ⟨k, hk, hfails, hs⟩ := hs
        have hnum : lo + 1 + k = lo + (k + 1) := by omega
        refine ⟨k + 1, by simpa using hk, hnum ▸ hfails, hs.mono fun w h =>
          ⟨⟨h.1.1.1, h.1.2⟩, fun c hlo hhi => ?_, ?_⟩⟩
        · obtain rfl | hlo := Nat.eq_or_lt_of_le hlo
          · exact h.1.1.2
          · exact h.2.1 c hlo (by omega)
        · rw [← hnum]
          exact h.2.2
    · refine .modify_bind (R := fun s : Sys => ∃ k < (tag :: tags).length, Fails (lo + k) e s.log ∧
        Ready (fun w => (B w ∧ w.accepted = acc) ∧ w.CompletedFrom lo (lo + k) ∧
          (w.popped (lo + k) = true ∨ dmaMayBeInFlight e = true))
          { fr with cut := (tag :: tags).drop (k + 1) ++ fr.cut }
          ((tag :: tags).drop (k + 1) ++ held) [] s) (fun s hs => ?_) (.throw fun _ h => h)
      obtain ⟨hs, hfails⟩ := hs
      refine ⟨0, by simp, hfails, ⟨hs.tags.forget tags fun hne => ?_,
        ⟨hs.world.1, fun c _ _ => by omega, hs.world.2⟩, ?_⟩⟩
      · obtain ⟨a, ha, hcontinues⟩ := hchunked 1 Nat.one_pos
          (Nat.succ_lt_succ (List.length_pos_iff.2 hne))
        rw [← show s.world.accepted = acc from hs.world.1.2] at ha
        exact .of_failed hfails.failed ha hcontinues
      · rw [← hs.frame]
        rfl

/-- The pending tags are those of the commands from `lo` on. -/
def Pends (acc : List Accepted) (lo : ℕ) (pending : List Tag) : Prop :=
  pending = (acc.drop lo).map (·.cmd.tagId)

theorem Pends.latest {lo : ℕ} {pending : List Tag} (h : Pends acc lo pending)
    (hnodup : pending.Nodup) {i : ℕ} {t : Tag} (hi : pending[i]? = some t) {w : World}
    (hw : w.accepted = acc) : w.Latest t (lo + i) := by
  unfold Pends at h
  subst hw
  have hget : ∀ j u, pending[j]? = some u ↔
      ∃ a, w.accepted[lo + j]? = some a ∧ a.cmd.tagId = u := fun j u => by
    simp [h, List.getElem?_drop]
  refine ⟨(hget i t).1 hi, fun b a hb hbt => ?_⟩
  by_contra hlt
  have hj : pending[b - lo]? = some t := (hget _ t).2 ⟨a, by rwa [show lo + (b - lo) = b by omega],
    hbt⟩
  have := (List.getElem?_inj (List.getElem?_eq_some_iff.1 hi).1 hnodup).1 (hi.trans hj.symm)
  omega

/-- The first `count` pending commands, those from `lo` on, are awaited. If that fails, the
tags of those not reached are forgotten. -/
theorem awaitDma_linked {lo count : ℕ} (hB : Patient B)
    (hlink : fr.pending.Nodup → ∀ i t, fr.pending[i]? = some t → ∀ w : World, w.accepted = acc →
      w.Latest t (lo + i)) (hchunked : Chunked acc lo count) :
    Triple (Tidy (fun w => B w ∧ w.accepted = acc) fr rest) (awaitDma count timeout command)
      (Ends (fun _ s => count ≤ fr.pending.length ∧
          Tidy (fun w => (B w ∧ w.accepted = acc) ∧ w.CompletedFrom lo (lo + count))
            { fr with pending := fr.pending.drop count } rest s)
        fun e s => ∃ k < count, Fails (lo + k) e s.log ∧ Tidy (fun w => (B w ∧ w.accepted = acc) ∧
            w.CompletedFrom lo (lo + k) ∧ (w.popped (lo + k) = true ∨ dmaMayBeInFlight e = true))
          { fr with
            pending := fr.pending.drop count
            cut := (fr.pending.take count).drop (k + 1) ++ fr.cut } rest s) := by
  refine .intro (p := fr.pending.Nodup) (fun s hs => ?_) fun hnodup => ?_
  · exact (List.nodup_append.1 (by simpa using hs.tags.nodup)).1
  refine getPending_bind (.ite (fun _ => .panic fun _ h => h.inOrder) fun hcount => ?_)
  have hcount : count ≤ fr.pending.length := by omega
  have hlen : (fr.pending.take count).length = count := by simpa using hcount
  have hsplit : (fr.pending ++ (fr.cut ++ rest)).Perm
      (fr.pending.take count ++ (fr.pending.drop count ++ (fr.cut ++ rest))) := by
    rw [← List.append_assoc (fr.pending.take count), List.take_append_drop]
  refine .bind (setPending_spec.pre fun s hs => hs.perm hsplit) fun _ => ?_
  refine (awaitEach_spec hB (fr.pending.take count) lo (fun i t hi w hw => ?_)
    (hlen.symm ▸ hchunked)).conseq (fun _ h => h) (fun _ s hs => ⟨hcount, ?_⟩) (fun e s hs => ?_)
    fun _ h => h
  · have hi' : i < count := by
      have := (List.getElem?_eq_some_iff.1 hi).1
      simp only [List.length_take] at this
      omega
    exact hlink hnodup i t (by simpa [List.getElem?_take, hi'] using hi) w hw
  · exact Ready.mono hs fun w h => by rwa [hlen] at h
  · obtain ⟨k, hk, hfails, hs⟩ := hs
    rw [hlen] at hk
    refine ⟨k, hk, hfails, Ready.perm hs ?_⟩
    simp only [← List.append_assoc]
    exact List.Perm.append_right _ (List.Perm.append_right _ List.perm_append_comm)

/-- A command from `lo` on was refused, those before it have been popped, and those after it,
the last ones accepted, go on with its chunk. -/
def Refuses (acc : List Accepted) (lo : ℕ) (s : Sys) : Prop :=
  ∃ c, refused s.log = some c ∧ (∀ d, lo ≤ d → d ≤ c → s.world.popped d = true) ∧
    ∀ d a, c < d → acc[d]? = some a → a.continues = true

/-- When the pending commands are all those from `lo` on, none is lost sight of. -/
theorem awaitDma_spec (lo : ℕ) {count : ℕ} (hB : Patient B) (hpends : Pends acc lo fr.pending)
    (hchunked : Chunked acc lo count) :
    Triple (Tidy (fun w => B w ∧ w.accepted = acc) fr rest) (awaitDma count timeout command)
      (Ends (fun _ s => count ≤ fr.pending.length ∧
          Tidy (fun w => (B w ∧ w.accepted = acc) ∧ w.CompletedFrom lo (lo + count))
            { fr with pending := fr.pending.drop count } rest s)
        fun e s => ∃ forgotten,
          (dmaMayBeInFlight e = false → fr.pending.drop count = [] → Refuses acc lo s) ∧
          Tidy (fun w => (B w ∧ w.accepted = acc) ∧
            Accounted acc lo (fr.pending.drop count ++ forgotten) e w)
          { fr with pending := fr.pending.drop count, cut := forgotten ++ fr.cut } rest s) := by
  refine (awaitDma_linked hB (fun hnodup i t hi w hw => hpends.latest hnodup hi hw)
    hchunked).conseq (fun _ h => h) (fun _ _ h => h) (fun e s ⟨k, hk, hfails, hs⟩ => ?_) fun _ h => h
  refine ⟨(fr.pending.take count).drop (k + 1), fun he hnil => ?_,
    hs.mono fun w h => ⟨h.1, fun c a hlo ha => ?_⟩⟩
  · refine ⟨lo + k, hfails.refused he, fun d hlo hd => ?_, fun d a hd ha => ?_⟩
    · obtain rfl | hd := Nat.eq_or_lt_of_le hd
      · exact hs.world.2.2.resolve_right (by simp [he])
      · exact (hs.world.2.1 d hlo hd).1
    · have hlt := (List.getElem?_eq_some_iff.1 ha).1
      rw [hpends, List.drop_eq_nil_iff, List.length_map, List.length_drop] at hnil
      obtain ⟨a', ha', hcontinues⟩ := hchunked (d - lo) (by omega) (by omega)
      rw [show lo + (d - lo) = d by omega, ha] at ha'
      exact Option.some.inj ha' ▸ hcontinues
  obtain hck | hck | hck := lt_trichotomy c (lo + k)
  · exact .inl (h.2.1 c hlo hck).1
  · rw [hck]
    exact h.2.2.imp id .inr
  · refine .inr (.inl ?_)
    have hget : fr.pending[c - lo]? = some a.cmd.tagId := by
      rw [hpends, List.getElem?_map, List.getElem?_drop, show lo + (c - lo) = c by omega, ha]
      rfl
    by_cases hcc : c - lo < count
    · refine List.mem_append_right _ (List.mem_of_getElem? (i := c - lo - (k + 1)) ?_)
      rw [List.getElem?_drop, List.getElem?_take, show k + 1 + (c - lo - (k + 1)) = c - lo by omega,
        if_pos hcc, hget]
    · refine List.mem_append_left _ (List.mem_of_getElem? (i := c - lo - count) ?_)
      rw [List.getElem?_drop, show count + (c - lo - count) = c - lo by omega, hget]

end EtSoc

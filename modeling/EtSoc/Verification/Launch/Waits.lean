import EtSoc.Verification.Launch.Launches

/-! # Waiting for kernels -/

namespace EtSoc

open Function Program

theorem World.Latest.of_accepted {w w' : World} (h : w.accepted = w'.accepted) {t : Tag} {c : ℕ}
    (hc : w.Latest t c) : w'.Latest t c := by
  unfold World.Latest at hc ⊢
  rwa [← h]

/-- The tags of a launch are those of the last commands under them: first those of the
arguments, from `lo` on, and then the launch. -/
def World.Linked (w : World) (lo : ℕ) (tags : List Tag) : Prop :=
  ∀ i t, tags[i]? = some t → w.Latest t (lo + i)

variable {P : World → Prop} {acc : List Accepted} {fr : Frame} {rest : List Tag}
  {launch : PendingLaunch} {lo : ℕ}

theorem collectLaunch_spec (fr : Frame) (held : List Tag) {c : ℕ} {timeout : Option Duration}
    (hP : Patient P) (hlatest : ∀ w, P w → w.Latest launch.tag c) :
    Triple (Ready P fr (launch.tag :: held) []) (do
        let rsp ← collectResponse launch.tag timeout "kernel completion"
        match responseStatus rsp.bytes with
        | none => Prog.throw (.protocol "kernel-launch response truncated")
        | some status =>
          if status ≠ kernelCompleted then
            Prog.throw (.kernelLaunch status (kernelLaunchStatusName status)
              (parseKernelErrorPtr rsp.bytes))
          else
            pure (LaunchResult.mk (parseLaunchTiming rsp.bytes)))
      (Ends (fun _ => Ready (fun w => P w ∧ w.Completed c) fr held [])
        fun _ => Ready P fr held []) := by
  refine .bind ((collectResponse_spec hP timeout _).conseq (fun _ h => h) (fun _ _ h => h.1)
    (fun _ _ h => h.1.1) fun _ h => h) fun rsp => ?_
  split
  · exact .throw fun s hs => hs.1
  · rename_i status hstatus
    refine .ite (fun _ => .throw fun s hs => hs.1) fun hzero => .pure fun s hs => ?_
    obtain ⟨hs, c', hlatest', hp, hr, -⟩ := hs
    obtain rfl := hlatest'.unique (hlatest _ hs.world)
    refine ⟨hs.tags, ⟨hs.world, hp, rsp.bytes, hr, ?_⟩, hs.frame⟩
    rw [World.success, hstatus]
    exact congrArg some (not_not.1 hzero)

theorem waitLaunch_spec (acc : List Accepted) (rest : List Tag) (hP : Patient P) (hp : fr.pending = [])
    (hlink : ∀ w, P w → w.Linked lo (launch.argsDma ++ [launch.tag]))
    (hchunked : ∀ w, P w → Chunked w.accepted lo launch.argsDma.length) :
    Triple (Tidy (fun w => P w ∧ w.accepted = acc) fr (launch.argsDma ++ launch.tag :: rest))
      (waitLaunch launch)
      (Ends (fun _ => Tidy (fun w => (P w ∧ w.accepted = acc) ∧
          w.CompletedFrom lo (lo + launch.argsDma.length) ∧
          w.Completed (lo + launch.argsDma.length)) fr rest)
        fun _ s => ∃ forgotten, Tidy (fun w => P w ∧ w.accepted = acc)
          { fr with cut := forgotten ++ fr.cut } rest s) := by
  let n := launch.argsDma.length
  have hargs : ∀ w, P w → ∀ i t, launch.argsDma[i]? = some t → w.Latest t (lo + i) :=
    fun w hw i t hi => hlink w hw i t (by
      rwa [List.getElem?_append_left (List.getElem?_eq_some_iff.1 hi).1])
  have hcmd : ∀ w, P w → w.Latest launch.tag (lo + n) := fun w hw =>
    hlink w hw n launch.tag (by simp [n])
  refine .intro (p := (∀ w : World, w.accepted = acc → ∀ i t, launch.argsDma[i]? = some t →
    w.Latest t (lo + i)) ∧ Chunked acc lo launch.argsDma.length)
    (fun s hs => ⟨fun w hw i t hi => ?_, ?_⟩) fun ⟨hlatest, hchunked⟩ => ?_
  · exact (hargs _ hs.world.1 i t hi).of_accepted (hs.world.2.trans hw.symm)
  · rw [← hs.world.2]
    exact hchunked _ hs.world.1
  have hmine : ∀ s, Tidy (fun w => P w ∧ w.accepted = acc) fr
      (launch.argsDma ++ launch.tag :: rest) s → Ready (fun w => P w ∧ w.accepted = acc) fr
        (launch.argsDma ++ (fr.cut ++ launch.tag :: rest)) [] s := fun s hs => by
    refine Ready.perm hs ?_
    rw [hp]
    exact List.perm_append_comm_assoc fr.cut launch.argsDma (launch.tag :: rest)
  refine .bind (setPending_spec.pre hmine) fun _ => ?_
  refine .attempt_bind (R := fun _ => Tidy (fun w => (P w ∧ w.accepted = acc) ∧
      w.CompletedFrom lo (lo + n)) fr (launch.tag :: rest))
    (E := fun _ s => ∃ forgotten, Tidy (fun w => P w ∧ w.accepted = acc)
      { fr with cut := forgotten ++ fr.cut } (launch.tag :: rest) s)
    ((awaitDma_linked hP (fun _ i t hi w hw => hlatest w hw i t hi) hchunked).conseq
      (fun _ h => h) (fun _ s hs => ?_) (fun e s hs => ?_) fun _ h => h) (fun u => ?_) fun e => ?_
  · have hframe : { fr with pending := launch.argsDma.drop launch.argsDma.length } = fr := by
      rw [List.drop_length, Frame.setPending_nil hp]
    exact hframe ▸ hs.2
  · obtain ⟨k, -, -, hs⟩ := hs
    refine ⟨(launch.argsDma.take launch.argsDma.length).drop (k + 1), ?_⟩
    have hframe : ∀ cut, { fr with pending := launch.argsDma.drop launch.argsDma.length, cut := cut } =
        { fr with cut := cut } := fun cut => by
      rw [List.drop_length, ← hp]
    rw [← hframe]
    exact hs.mono fun w hw => hw.1
  · have hpat := (hP.and (.accepted acc)).and (patient_completedFrom lo (lo + n))
    refine (collectLaunch_spec fr (fr.cut ++ rest) hpat fun w hw => hcmd w hw.1.1).conseq
      (fun s hs => ?_) (fun _ s hs => ?_) (fun e s hs => ⟨[], ?_⟩) fun _ h => h
    · refine Ready.perm hs ?_
      rw [hp]
      exact List.perm_middle
    · exact (tidy_iff hp).2 (hs.mono fun w hw => ⟨hw.1.1, hw.1.2, hw.2⟩)
    · exact (tidy_iff hp).2 (hs.mono fun w hw => hw.1)
  · refine .exists_pre fun forgotten => ?_
    have hpending : ({ fr with cut := forgotten ++ fr.cut } : Frame).pending = [] := hp
    refine .bind abandonAll_spec fun _ => ?_
    rw [Frame.setPending_nil hpending]
    refine .bind (abandon_spec.pre fun s hs => hs.perm List.perm_middle) fun _ =>
      .throw fun s hs => ⟨forgotten, (tidy_iff hpending).2 hs⟩

/-! ## Resets of the compute minions -/

/-- What the command of a reset is. -/
structure IsReset (shireMask : ℕ) (a : Accepted) : Prop where
  sqIndex : a.sqIndex = 0
  descFlags : a.descFlags = DescFlags.highPriority
  flags : a.cmd.header.flags = CmdFlags.barrier
  body : a.cmd.body = .cmReset shireMask

theorem IsReset.nodes_eq {shireMask : ℕ} {a : Accepted} (h : IsReset shireMask a) :
    a.cmd.nodes = [] := by
  rw [Command.nodes, h.body]

theorem buildCmReset_eq_some {shireMask : ℕ} {tag : Tag} {cmd : Command}
    (h : buildCmReset tag shireMask = some cmd) (host : BufId → Memory) :
    cmd.tagId = tag ∧ IsReset shireMask ⟨0, DescFlags.highPriority, cmd, host⟩ := by
  simp only [buildCmReset, command, Option.map_eq_some_iff] at h
  obtain ⟨size, -, rfl⟩ := h
  exact ⟨rfl, rfl, rfl, rfl, rfl⟩

theorem resetShires_spec {E : Env} {B : World → Prop} {shireMask : ℕ} (hB : Stable E B)
    (hE : ∀ a, IsReset shireMask a → a.cmd.tagId ∉ rest → E.accepts a) :
    Triple (Tidy (fun w => B w ∧ w.accepted = acc) fr rest) (resetShires shireMask)
      (Ends (fun _ s => ∃ a, IsReset shireMask a ∧
          Tidy (fun w => B w ∧ w.accepted = acc ++ [a]) fr rest s)
        fun _ s => ∃ own, (∀ a ∈ own, IsReset shireMask a) ∧
          Tidy (fun w => B w ∧ w.accepted = acc ++ own) fr rest s) := by
  have hnil : ∀ s, Tidy (fun w => B w ∧ w.accepted = acc) fr rest s → ∃ own,
      (∀ a ∈ own, IsReset shireMask a) ∧ Tidy (fun w => B w ∧ w.accepted = acc ++ own) fr rest s :=
    fun s hs => ⟨[], by simp, by simpa using hs⟩
  refine .bind (nextTag_spec.conseq (fun _ h => h) (fun _ _ h => h) (fun _ s h => hnil s h.1)
    fun _ h => h) fun tag => .bind liftOption_spec fun cmd => .intro (fun _ h => h.2) fun hcmd => ?_
  obtain ⟨rfl, -⟩ := buildCmReset_eq_some hcmd fun _ _ => 0
  refine .read_bind fun dev => ?_
  have hP := hB.patient.and (.accepted acc)
  refine .bind (R := fun _ s => ∃ a, IsReset shireMask a ∧
    Tidy (fun w => B w ∧ w.accepted = acc ++ [a]) fr rest s) ?_ fun rsp => .exists_pre fun a =>
      .and_pre fun ha => ?_
  · refine .bind ((pushCmd_spec hP).conseq (fun _ h => h.1.1) (fun _ _ h => h)
      (fun _ s h => hnil s h.1) fun _ h => h) fun _ => ?_
    refine .pre (P := fun s => ∃ a, IsReset shireMask a ∧ Ready (fun w => B w ∧
      w.accepted = acc ++ [a]) fr (cmd.tagId :: (fr.pending ++ (fr.cut ++ rest))) [] s)
      (.exists_pre fun a => .and_pre fun ha => ?_) fun s hs => ?_
    · exact (collectResponse_spec (hB.patient.and (.accepted _)) _ _).conseq (fun _ h => h)
        (fun _ s hs => ⟨a, ha, hs.1.1⟩) (fun _ s hs => ⟨[a], by simpa using ha, hs.1.1⟩) fun _ h => h
    · obtain ⟨w, hsound, ⟨hBw, hacc⟩, hworld⟩ := hs.world
      obtain ⟨-, hreset⟩ := buildCmReset_eq_some hcmd w.host
      refine ⟨_, hreset, hs.tags, ⟨?_, ?_⟩, hs.frame⟩
      · rw [hworld]
        refine hB w _ hsound (.accept _ _ _ (hE _ hreset fun hin => ?_) ?_ ?_) hBw
        · exact (List.nodup_cons.1 hs.tags.nodup).1 (by simp [hin])
        · simp [World.Clear, hreset.nodes_eq]
        · simp [hreset.nodes_eq]
      · rw [hworld, ← hacc]
        rfl
  · have hdone : ∀ s, Tidy (fun w => B w ∧ w.accepted = acc ++ [a]) fr rest s → ∃ own,
        (∀ a ∈ own, IsReset shireMask a) ∧
          Tidy (fun w => B w ∧ w.accepted = acc ++ own) fr rest s :=
      fun s hs => ⟨[a], by simpa using ha, hs⟩
    split
    · exact .throw fun s hs => hdone s hs
    · exact .ite (fun _ => .throw fun s hs => hdone s hs) fun _ => .pure fun s hs => ⟨a, ha, hs⟩

end EtSoc

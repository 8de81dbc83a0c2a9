import EtSoc.Verification.Tags.Ready

/-! # Reserving tags and pushing commands -/

namespace EtSoc

open Function Program

variable {P : World → Prop} {fr : Frame} {held : List Tag}

theorem nextTag_spec :
    Triple (Ready P fr held []) nextTag
      (Ends (fun tag => Ready P fr held [tag])
        fun e s => Ready P fr held [] s ∧ dmaMayBeInFlight e = false) := by
  refine .read_bind fun dev => ?_
  split
  · rename_i tag heq
    refine .modify_bind (R := Ready P fr held [tag]) (fun s hs => ?_) (.pure fun _ h => h)
    obtain ⟨hs, rfl⟩ := hs
    exact ⟨hs.tags.reserve (freeTag_notMem heq), hs.world, hs.frame⟩
  · exact .throw fun s hs => ⟨hs.1, rfl⟩

theorem release_spec {tag : Tag} {E : Error → Sys → Prop} :
    Triple (Ready P fr held [tag]) (release tag) (Ends (fun _ => Ready P fr held []) E) :=
  .modify fun _ hs => ⟨hs.tags.unreserve, hs.world, hs.frame⟩

/-- The state right after a queue took `cmd`. -/
structure Accepts (P : World → Prop) (fr : Frame) (held : List Tag) (sqIndex : UInt16)
    (descFlags : UInt8) (cmd : Command) (s : Sys) : Prop where
  tags : TagInv (cmd.tagId :: held) [] s.books
  world : ∃ w, w.Sound ∧ P w ∧ s.world = w.accept sqIndex descFlags cmd
  frame : s.frame = fr

variable {sqIndex : UInt16} {descFlags : UInt8} {cmd : Command}

theorem pushSq_spec (hP : Patient P) :
    Triple (Ready P fr held [cmd.tagId]) (pushSq sqIndex cmd descFlags)
      (Ends (fun taken s => if taken then Accepts P fr held sqIndex descFlags cmd s
          else Ready P fr held [cmd.tagId] s)
        fun e s => Ready P fr held [cmd.tagId] s ∧ dmaMayBeInFlight e = true) := by
  refine .modify_bind (fun s hs => ⟨hs.tags, hs.world, hs.frame⟩) (.bind (consult_spec hP)
    fun answer => .bind (decision_spec answer) fun taken => ?_)
  cases taken with
  | false => exact .pure fun _ h => h
  | true =>
    refine .read_bind fun c s hs => ?_
    obtain ⟨hs, rfl⟩ := hs
    exact ⟨hs.tags.accept, ⟨s.world, hs.tags.sound, hs.world, rfl⟩, hs.frame⟩

theorem pushLoop_spec (hP : Patient P) (limit : Duration) (n : ℕ) :
    Triple (Ready P fr held [cmd.tagId]) (pushLoop sqIndex cmd descFlags limit n)
      (Ends (fun _ => Accepts P fr held sqIndex descFlags cmd)
        fun e s => Ready P fr held [cmd.tagId] s ∧ dmaMayBeInFlight e = true) := by
  induction n with
  | zero => exact .block fun _ h => h.inOrder
  | succ n ih =>
    refine .bind (pushSq_spec hP) fun taken => ?_
    cases taken with
    | true => exact .pure fun _ h => h
    | false =>
      refine .bind (expired_spec hP) fun late => .ite (fun _ => ?_) fun _ => ?_
      · exact .throw fun _ h => ⟨h, rfl⟩
      · exact .bind (waitReady_spec hP) fun _ => ih

theorem pushCmd_spec (hP : Patient P) :
    Triple (Ready P fr held [cmd.tagId]) (pushCmd sqIndex cmd descFlags cmd.tagId)
      (Ends (fun _ => Accepts P fr held sqIndex descFlags cmd)
        fun e s => Ready P fr held [] s ∧ dmaMayBeInFlight e = true) := by
  have hinner : Triple (Ready P fr held [cmd.tagId]) (pushCmdInner sqIndex cmd descFlags)
      (Ends (fun _ => Accepts P fr held sqIndex descFlags cmd)
        fun e s => Ready P fr held [cmd.tagId] s ∧ dmaMayBeInFlight e = true) :=
    .read_bind fun dev => .read_bind fun n =>
      (pushLoop_spec hP dev.defaultTimeout n).pre fun _ h => h.1.1
  refine .attempt_bind hinner (fun u => .pure fun _ h => h) fun e => ?_
  refine .intro (fun _ h => h.2) fun he => ?_
  refine .bind (R := fun _ => Ready P fr held []) (release_spec.pre fun _ h => h.1) fun _ => ?_
  exact .throw fun _ h => ⟨h, he⟩

end EtSoc

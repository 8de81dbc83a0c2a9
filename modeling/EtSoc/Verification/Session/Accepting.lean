import EtSoc.Verification.Session.Calm
import EtSoc.Verification.Session.Heap
import EtSoc.Verification.Wire.Pushing

/-! # Launches whose arguments a queue takes -/

namespace EtSoc

open Function Program

variable {P : Device → Prop} {a n : ℕ} {choice : Choice} {script : List Choice} {α : Type}

/-! ## What the transport is about to answer -/

/-- What an answer decides, unless it is an error. -/
def Answer.decides : Answer → Option Bool
  | .fail _ => none
  | .yes => some true
  | _ => some false

/-- A queue takes a push that the transport so answers, at once or before the deadline. -/
def takesPush : List Choice → Bool
  | [] => false
  | push :: rest =>
    match push.answer.decides with
    | none => false
    | some true => true
    | some false =>
      match rest with
      | late :: ready :: rest =>
        late.answer.decides != some true && ready.answer.decides.isSome && takesPush rest
      | _ => false

/-- The host buffer mapped in answer to this can be addressed up to byte `len`. -/
def Answer.maps (len : ℕ) : Answer → Bool
  | .fail _ => false
  | .buffer _ physAddr => physAddr = 0 ∨ physAddr + len ≤ 2 ^ 64
  | _ => true

/-- A queue takes the first command of a chunk, if the limit on its nodes is `cached`. -/
def takesList (cached : Option ℕ) (script : List Choice) : Bool :=
  match cached, script with
  | some _, script => takesPush script
  | none, msg :: script => msg.answer.decides.isSome && takesPush script
  | none, [] => false

/-- The transport maps a buffer for `len` bytes, and a queue takes the first command that
writes them. -/
def takesArgs (cached : Option ℕ) (len : ℕ) : List Choice → Bool
  | mapping :: _ :: script => mapping.answer.maps len && takesList cached script
  | _ => false

/-- The same, and a tag is free. -/
def Sys.TakesArgs (s : Sys) (len : ℕ) : Prop :=
  s.dev.outstanding.card < 65536 ∧ takesArgs s.dev.maxListNodes len s.script = true

instance (s : Sys) (len : ℕ) : Decidable (s.TakesArgs len) := inferInstanceAs (Decidable (_ ∧ _))

/-! ## Commands accepted -/

/-- More than `a` commands were accepted. -/
def Advanced (a : ℕ) (s : Sys) : Prop := a < s.world.accepted.length

theorem numb_advanced (a : ℕ) : Numb (fun _ => True) (fun _ => True) (Advanced a) where
  waiting := trivial
  panics := fun _ _ => trivial
  act := fun s _ ds h => by
    unfold Advanced
    rwa [World.steps_accepted]
  fill := fun _ _ _ h => h
  tags := fun _ _ _ _ _ h => h
  log := fun _ _ h => h
  cut := fun _ _ h => h
  pop := fun _ _ h => h
  offer := fun _ _ _ h => h
  accept := fun _ _ _ _ _ h => Nat.lt_of_lt_of_le h (by simp [World.accept])
  peak := fun _ _ _ h => h

/-- No command was accepted since there were `a`, and the transport is about to answer
`script`. -/
structure Brink (P : Device → Prop) (a : ℕ) (script : List Choice) (s : Sys) : Prop where
  dev : P s.dev
  accepted : s.world.accepted.length = a
  script : s.script = script

/-- The program returns. -/
def Gives (R : α → Sys → Prop) : Post Sys Error α := ⟨R, fun _ _ => False, fun _ _ => False⟩

theorem consult_brink : Triple (Brink P a (choice :: script)) consult
    (Gives fun answer s => answer = choice.answer ∧ Brink P a script s) := by
  intro s hs
  unfold consult
  rw [hs.script]
  exact ⟨rfl, hs.dev, by rw [World.steps_accepted]; exact hs.accepted, rfl⟩

theorem decision_brink {answer : Answer} {decided : Bool} {Q : Sys → Prop}
    (h : answer.decides = some decided) :
    Triple Q (decision answer) (Gives fun b s => b = decided ∧ Q s) := by
  cases answer with
  | fail e => simp [Answer.decides] at h
  | yes => exact .pure fun s hs => ⟨Option.some.inj h, hs⟩
  | _ => exact .pure fun s hs => ⟨Option.some.inj h, hs⟩

theorem waitReady_brink (h : choice.answer.decides.isSome = true) :
    Triple (Brink P a (choice :: script)) waitReady (Gives fun _ => Brink P a script) := by
  obtain ⟨decided, hdecided⟩ := Option.isSome_iff_exists.1 h
  refine .bind consult_brink fun answer => .and_pre fun hanswer => ?_
  subst hanswer
  exact (decision_brink hdecided).conseq (fun _ h => h) (fun _ _ h => h.2) (fun _ _ h => h)
    fun _ h => h

theorem expired_brink (h : choice.answer.decides ≠ some true) :
    Triple (Brink P a (choice :: script)) expired
      (Gives fun late s => late = false ∧ Brink P a script s) := by
  refine .bind consult_brink fun answer => .and_pre fun hanswer => ?_
  subst hanswer
  cases hans : choice.answer with
  | yes => simp [hans, Answer.decides] at h
  | _ => exact .pure fun _ hs => ⟨rfl, hs⟩

theorem sqMaxMsgSize_brink (h : choice.answer.decides.isSome = true) :
    Triple (Brink P a (choice :: script)) sqMaxMsgSize (Gives fun _ => Brink P a script) := by
  refine .bind consult_brink fun answer => .and_pre fun hanswer => ?_
  subst hanswer
  cases hans : choice.answer with
  | fail e => simp [hans, Answer.decides] at h
  | _ => exact fun _ hs => hs

/-! ## Pushing -/

variable {sqIndex : UInt16} {cmd : Command} {descFlags : UInt8}

/-- The transport's answer decides whether a push is taken. -/
theorem pushSq_brink {decided : Bool} (h : choice.answer.decides = some decided) :
    Triple (Brink P a (choice :: script)) (pushSq sqIndex cmd descFlags)
      (Gives fun taken s => taken = decided ∧ if decided then Advanced a s else Brink P a script s) := by
  refine .modify_bind (R := Brink P a (choice :: script))
    (fun s hs => ⟨hs.dev, hs.accepted, hs.script⟩) (.bind consult_brink fun answer =>
      .and_pre fun hanswer => .bind (decision_brink (hanswer ▸ h)) fun taken =>
        .and_pre fun htaken => ?_)
  subst htaken
  cases taken with
  | false => exact .pure fun s hs => ⟨rfl, hs⟩
  | true =>
    intro s hs
    refine ⟨rfl, ?_⟩
    change a < (s.world.accept sqIndex descFlags cmd).accepted.length
    simp [World.accept, hs.accepted]

/-- Polling the queue goes on until the command is taken. -/
theorem pushLoop_brink {limit : Duration} (m : ℕ) :
    ∀ script : List Choice, takesPush script = true → script.length < m →
      Triple (Brink P a script) (pushLoop sqIndex cmd descFlags limit m)
        (Gives fun _ => Advanced a) := by
  induction m with
  | zero => exact fun script _ hlen => absurd hlen (Nat.not_lt_zero _)
  | succ m ih =>
    intro script htakes hlen
    cases script with
    | nil => simp [takesPush] at htakes
    | cons push rest =>
      cases hpush : push.answer.decides with
      | none =>
        unfold takesPush at htakes
        simp [hpush] at htakes
      | some decided =>
        refine .bind (pushSq_brink hpush) fun taken => .and_pre fun htaken => ?_
        subst htaken
        cases taken with
        | true => exact .pure fun _ hs => hs
        | false =>
          match rest, htakes with
          | [], htakes => simp [takesPush, hpush] at htakes
          | [_], htakes => simp [takesPush, hpush] at htakes
          | late :: ready :: rest, htakes =>
            simp only [takesPush, hpush, Bool.and_eq_true, bne_iff_ne] at htakes
            obtain ⟨⟨hlate, hready⟩, htakes⟩ := htakes
            refine .bind (expired_brink hlate) fun late => .and_pre fun hfalse => ?_
            subst hfalse
            refine .bind (waitReady_brink hready) fun _ => ih rest htakes ?_
            simp only [List.length_cons] at hlen
            omega

theorem pushCmd_brink {tag : Tag} (h : takesPush script = true) :
    Triple (Brink P a script) (pushCmd sqIndex cmd descFlags tag) (Gives fun _ => Advanced a) := by
  have hinner : Triple (Brink P a script) (pushCmdInner sqIndex cmd descFlags)
      (Gives fun _ => Advanced a) := by
    refine .read_bind fun dev => .read_bind fun m => .intro (p := m = script.length + 1)
      (fun s hs => ?_) fun hm => ?_
    · rw [← hs.2, hs.1.1.script]
    · exact (pushLoop_brink m script h (by omega)).pre fun s hs => hs.1.1
  exact .attempt_bind hinner (fun _ => .pure fun _ hs => hs) fun _ _ hs => hs.elim

/-! ## The argument command -/

/-- Looking for a tag fails only when all from `start` on are outstanding. -/
theorem mem_of_freeTag {outstanding : Finset Tag} {start : Tag} (n : ℕ) :
    ∀ k, k + n = 65536 → freeTag outstanding start n (start + UInt16.ofNat k) = none →
      ∀ i, k ≤ i → i < 65536 → start + UInt16.ofNat i ∈ outstanding := by
  induction n with
  | zero => exact fun k hk _ i hle hlt => absurd hlt (by omega)
  | succ n ih =>
    intro k hk hnone i hle hlt
    rw [freeTag] at hnone
    split at hnone
    · simp at hnone
    rename_i hmem
    rcases Nat.eq_or_lt_of_le hle with rfl | hlt'
    · exact not_not.1 hmem
    · have hnext : start + UInt16.ofNat k + 1 = start + UInt16.ofNat (k + 1) := by
        rw [UInt16.ofNat_add, UInt16.add_assoc]
        rfl
      have hne : start + UInt16.ofNat k + 1 ≠ start := by
        intro heq
        have hlt : k + 1 < UInt16.size := by
          simp only [UInt16.size]
          omega
        rw [hnext, UInt16.add_eq_left, ← UInt16.toNat_inj, UInt16.toNat_ofNat_of_lt' hlt] at heq
        simp at heq
      rw [if_neg hne, hnext] at hnone
      exact ih (k + 1) (by omega) hnone i hlt' hlt

/-- Among fewer than 65536 outstanding tags there is a free one. -/
theorem freeTag_of_card {outstanding : Finset Tag} {start : Tag}
    (h : outstanding.card < 65536) : freeTag outstanding start 65536 start ≠ none := by
  intro hnone
  have hmem : ∀ i, 0 ≤ i → i < 65536 → start + UInt16.ofNat i ∈ outstanding :=
    mem_of_freeTag 65536 0 rfl (by simpa using hnone)
  have hle : (Finset.range 65536).card ≤ outstanding.card := by
    refine Finset.card_le_card_of_injOn (fun i => start + UInt16.ofNat i)
      (fun i hi => hmem i (Nat.zero_le _) (Finset.mem_range.1 hi)) fun i hi j hj heq => ?_
    have hi : i < 65536 := by simpa using hi
    have hj : j < 65536 := by simpa using hj
    have heq : UInt16.ofNat i = UInt16.ofNat j := (UInt16.add_right_inj start).1 heq
    rw [← UInt16.toNat_inj, UInt16.toNat_ofNat_of_lt' (by simpa using hi),
      UInt16.toNat_ofNat_of_lt' (by simpa using hj)] at heq
    exact heq
  rw [Finset.card_range] at hle
  omega

/-- A tag is free, and the limit on the nodes of a command is `cached`. -/
def Device.Frees (cached : Option ℕ) (dev : Device) : Prop :=
  dev.outstanding.card < 65536 ∧ dev.maxListNodes = cached

theorem pushList_brink {cached : Option ℕ} {direction : Direction} {nodes : List DmaNode}
    (hbuilt : ∀ tag, ∃ cmd, buildDmaList direction tag CmdFlags.barrier nodes = some cmd)
    (h : takesPush script = true) :
    Triple (Brink (Device.Frees cached) a script) (pushList direction sqIndex nodes)
      (Gives fun _ => Advanced a) := by
  have htag : Triple (Brink (Device.Frees cached) a script) nextTag
      (Gives fun _ => Brink (fun _ => True) a script) := by
    refine .read_bind fun dev => ?_
    split
    · exact fun s hs => ⟨trivial, hs.1.accepted, hs.1.script⟩
    · rename_i hnone
      rintro s ⟨hs, rfl⟩
      exact freeTag_of_card hs.dev.1 hnone
  refine .bind htag fun tag => ?_
  obtain ⟨cmd, hcmd⟩ := hbuilt tag
  rw [hcmd]
  exact .bind (R := fun _ => Brink (fun _ => True) a script) (.pure fun _ hs => hs) fun cmd =>
    .bind (pushCmd_brink h) fun _ => .read_bind fun _ => .modify fun _ hs => hs.1

/-- A command may have this many nodes. -/
def Small (nodes : ℕ) : Prop := 1 ≤ nodes ∧ cmnHeaderSize + dmaNodeSize * nodes < 65536

theorem maxListNodes_brink {cached : Option ℕ} (hsmall : ∀ nodes ∈ cached, Small nodes)
    (h : takesList cached script = true) :
    Triple (Brink (Device.Frees cached) a script) maxListNodes (Gives fun nodes s =>
      Small nodes ∧ ∃ script, takesPush script = true ∧
        Brink (Device.Frees (some nodes)) a script s) := by
  refine .read_bind fun dev => .intro (p := dev.maxListNodes = cached) (fun s hs => ?_)
    fun hcached => ?_
  · rw [← hs.2, hs.1.dev.2]
  rw [hcached]
  match cached, script, h with
  | some nodes, script, h =>
    exact .pure fun s hs => ⟨hsmall nodes rfl, script, h, hs.1⟩
  | none, msg :: script, h =>
    obtain ⟨hmsg, htakes⟩ := Bool.and_eq_true_iff.1 h
    refine .bind ((sqMaxMsgSize_brink hmsg).pre fun s hs => hs.1) fun size => ?_
    exact .modify_bind (R := Brink (Device.Frees (some (nodeLimit dev.dram size))) a script)
      (fun s hs => ⟨⟨hs.dev.1, rfl⟩, hs.accepted, hs.script⟩)
      (.pure fun s hs => ⟨⟨nodeLimit_pos .., size_lt_of_le_nodeLimit (Nat.le_refl _)⟩, script,
        htakes, hs⟩)

/-- A chunk whose first command is taken. -/
theorem pushDmaStaged_brink {cached : Option ℕ} {direction : Direction} {host : DmaHostBuffer}
    {len addr : ℕ} {opts : DmaOptions} (hsmall : ∀ nodes ∈ cached, Small nodes)
    (h : takesList cached script = true) (hlen : 0 < len)
    (hhost : host.physAddr = 0 ∨ host.physAddr + len ≤ 2 ^ 64) (haddr : addr + len ≤ 2 ^ 64) :
    Triple (Brink (Device.Frees cached) a script) (pushDmaStaged direction host len addr opts)
      (Always (fun _ => True) (Advanced a)) := by
  refine .read_bind fun dev => .bind (((maxListNodes_brink hsmall h).pre fun _ hs => hs.1).conseq
    (fun _ h => h) (fun _ _ h => h) (fun _ _ h => h.elim) fun _ h => h.elim) fun nodes =>
      .and_pre fun hnodes => .exists_pre fun script' => .and_pre fun htakes => ?_
  let P : ℕ → Sys → Prop := fun off s =>
    if off = 0 then Brink (Device.Frees (some nodes)) a script' s else Advanced a s
  refine (pushStagedFrom_triple (P := P) (E := fun _ => Advanced a)
    (S := fun r s => True ∧ Advanced a s) (by omega) (fun off s hover _ => ?_)
    (fun off list off' hlist hne _ => ?_) len 0 0 [] (by omega) (by omega) (fun _ => rfl)
    ⟨rfl, by simp, by simp⟩ fun hpos => hpos).conseq (fun s hs => hs) (fun _ s hs => ?_)
      (fun _ _ h => h) fun _ h => h
  · omega
  · have hpos : off' ≠ 0 := by
      obtain ⟨node, list, rfl⟩ := List.exists_cons_of_ne_nil hne
      have := hlist.consecutive.2.2.1
      have := hlist.consecutive.2.2.2.le
      omega
    have hsize : cmnHeaderSize + dmaNodeSize * list.length < 65536 :=
      Nat.lt_of_le_of_lt (Nat.add_le_add_left (Nat.mul_le_mul_left _ (hlist.count hnodes.1)) _)
        hnodes.2
    have hbuilt : ∀ tag, ∃ cmd, buildDmaList direction tag CmdFlags.barrier list = some cmd := by
      intro tag
      cases direction <;> exact ⟨_, command_of_lt hsize ..⟩
    have hkept : Triple (Advanced a) (pushList direction opts.sqIndex list)
        (Always (fun _ => True) (Advanced a)) :=
      (numb_advanced a).pushList (fun _ _ h => h) (.inr trivial) fun _ _ _ => trivial
    simp only [P, if_neg hpos]
    by_cases hoff : off = 0
    · simp only [if_pos hoff]
      exact (pushList_brink hbuilt htakes).conseq (fun _ h => h) (fun _ _ h => h)
        (fun _ _ h => h.elim) fun _ h => h.elim
    · simp only [if_neg hoff]
      exact hkept
  · change Advanced a s
    simpa [P, Nat.pos_iff_ne_zero.1 hlen] using hs

/-! ## Staging the arguments -/

/-- Whether there is no idle slot for the arguments of a launch. -/
def Device.Lacks (dev : Device) (opts : LaunchOptions) : Prop :=
  opts.args ≠ [] ∧ reusableSlot dev.argsSlots dev.outstanding opts.args.length = none

instance (dev : Device) (opts : LaunchOptions) : Decidable (dev.Lacks opts) :=
  inferInstanceAs (Decidable (_ ∧ _))

/-- What a launch may leave on its way: `n` slots, or more than `a` commands accepted. -/
def Settles (n a : ℕ) (s : Sys) : Prop := s.dev.argsSlots.length ≤ n ∨ Advanced a s

theorem numb_settles (n a : ℕ) : Numb (fun _ => True) (fun _ => True) (Settles n a) where
  waiting := trivial
  panics := fun _ _ => trivial
  act := fun s script ds h => h.imp_right ((numb_advanced a).act s script ds)
  fill := fun _ _ _ h => h
  tags := fun _ _ _ _ _ h => h
  log := fun _ _ h => h
  cut := fun _ _ h => h
  pop := fun _ _ h => h
  offer := fun _ _ _ h => h
  accept := fun s sq flags cmd hB h => h.imp_right ((numb_advanced a).accept s sq flags cmd hB)
  peak := fun _ _ _ h => h

theorem submits_settles (n a : ℕ) : Submits (fun _ => True) (fun _ => True) (fun _ => True)
    (Settles n a) fun _ => Settles n a :=
  (numb_settles n a).submits ⟨(numb_settles n a).toRemote, fun _ _ _ _ h => h, fun _ _ h => h⟩
    (fun _ _ h => h) ((numb_settles n a).pushDmaStaged (fun _ _ h => h) (fun _ _ h => h) trivial
      fun _ => trivial) (fun s i f _ h => by simpa [Settles, Advanced] using h) fun _ _ _ _ => trivial

/-- The slot `i` was added for `len` bytes. -/
def Device.Adds (i len : ℕ) (dev : Device) : Prop :=
  ∃ region : DeviceRegion, region.size = len ∧ region.addr + len ≤ 2 ^ 64 ∧
    dev.argsSlots[i]? = some ⟨region, none, none⟩

/-- Where a slot is lacking, one is added or the launch has failed. -/
theorem argsSlot_brink {opts : LaunchOptions} {s₀ : Sys} (hlacks : s₀.dev.Lacks opts) :
    Triple (fun s => s = s₀) (argsSlot opts.args.length)
      ⟨fun i s => s.dev.Adds i opts.args.length ∧ s.dev.outstanding = s₀.dev.outstanding ∧
        s.dev.maxListNodes = s₀.dev.maxListNodes ∧ s.world = s₀.world ∧ s.script = s₀.script ∧
        s.pending = s₀.pending, fun _ s => s = s₀, fun _ s => s = s₀⟩ := by
  refine .read_bind fun dev => .intro (p := dev = s₀.dev) (fun s hs => by rw [← hs.2, hs.1])
    fun hdev => ?_
  subst hdev
  rw [hlacks.2]
  refine .bind ((alloc_triple (H := fun _ => True) (Q := fun s => s = s₀)
    (R := fun region s => ∃ t : Sys, t = s₀ ∧ t.Hands opts.args.length region ∧
      s = t.allocated region) trivial fun s region hs hhands => ⟨s, hs, hhands, rfl⟩).conseq
      (fun _ h => h.1) (fun _ _ h => h) (fun _ _ h => h) fun _ h => h.2) fun region => ?_
  rintro s ⟨t, rfl, hhands, rfl⟩
  refine ⟨⟨region, hhands.len, ?_, List.getElem?_concat_length⟩, rfl, rfl, rfl, rfl, rfl⟩
  have hwithin := hhands.within
  have hlimit := hhands.limit
  rw [DeviceRegion.endAddr, hhands.len] at hwithin
  omega

/-- Filling a new slot pushes a command. -/
theorem pushArgsDma_brink {i : ℕ} {args : List UInt8} {cached : Option ℕ} {mapping ticked : Choice}
    (hsmall : ∀ nodes ∈ cached, Small nodes) (hargs : args ≠ [])
    (hmaps : mapping.answer.maps args.length = true) (h : takesList cached script = true) :
    Triple (Brink (fun dev => dev.Frees cached ∧ dev.Adds i args.length) a
        (mapping :: ticked :: script)) (pushArgsDma i args sqIndex)
      (Always (fun _ => True) (Advanced a)) := by
  have hsubmits := (numb_advanced a).submits (A := fun _ => True)
    ⟨(numb_advanced a).toRemote, fun _ _ _ _ h => h, fun _ _ h => h⟩ (fun _ _ h => h)
    ((numb_advanced a).pushDmaStaged (fun _ _ h => h) (fun _ _ h => h) trivial fun _ => trivial)
    (fun _ _ _ _ h => h) fun _ _ _ _ => trivial
  refine .read_bind fun dev => .intro (p := dev.Adds i args.length) (fun s hs => hs.2 ▸ hs.1.dev.2)
    fun ⟨region, hsize, haddr, hslot⟩ => ?_
  rw [hslot]
  refine .bind (R := fun slot s => slot = ⟨region, none, none⟩ ∧
    Brink (Device.Frees cached) a (mapping :: ticked :: script) s)
    (.pure fun s hs => ⟨rfl, hs.1.dev.1, hs.1.accepted, hs.1.script⟩) fun slot =>
      .and_pre fun heq => ?_
  subst heq
  refine .modify_bind (R := Brink (Device.Frees cached) a (mapping :: ticked :: script))
    (fun s hs => ⟨hs.dev, hs.accepted, hs.script⟩) ?_
  have hmap : Triple (Brink (Device.Frees cached) a (mapping :: ticked :: script))
      (dmaHostBuffer .arguments region.size) (Gives fun host s =>
        (host.physAddr = 0 ∨ host.physAddr + args.length ≤ 2 ^ 64) ∧
          Brink (Device.Frees cached) a (ticked :: script) s) := by
    refine .bind consult_brink fun answer => .and_pre fun hanswer => ?_
    subst hanswer
    cases hans : mapping.answer with
    | fail e => simp [hans, Answer.maps] at hmaps
    | buffer contents physAddr =>
      rw [hans] at hmaps
      exact fun s hs => ⟨by simpa [Answer.maps] using hmaps, hs.dev, hs.accepted, hs.script⟩
    | _ => exact fun s hs => ⟨.inl rfl, hs.dev, hs.accepted, hs.script⟩
  refine .bind (hmap.conseq (fun _ h => h) (fun _ _ h => h) (fun _ _ h => h.elim) fun _ h => h.elim)
    fun host => .and_pre fun hhost => ?_
  have hfill : Triple (Brink (Device.Frees cached) a (ticked :: script))
      (writeHost host args.length fun _ k => args.getD k 0)
      (Gives fun _ => Brink (Device.Frees cached) a script) :=
    .bind (R := fun _ => Brink (Device.Frees cached) a script)
      (.bind consult_brink fun _ => .pure fun _ hs => hs.2) fun _ =>
        .modify fun s hs => ⟨hs.dev, hs.accepted, hs.script⟩
  refine .bind (hfill.conseq (fun _ h => h) (fun _ _ h => h) (fun _ _ h => h.elim)
    fun _ h => h.elim) fun _ => ?_
  refine .bind (R := fun _ => Advanced a) (.attempt (pushDmaStaged_brink hsmall h
    (List.length_pos_iff.2 hargs) hhost haddr)) fun pushed => .bind (hsubmits.setSlot i _) fun _ =>
      .read_bind fun _ => .bind ((hsubmits.assignOwner _ _).pre fun _ h => h.1) fun _ =>
        .ofExcept (fun _ _ _ hs => hs) fun _ _ _ hs => hs

/-- Where a slot is lacking and the transport takes the arguments, a command is pushed whenever
a slot is added. -/
theorem stageArgs_settles {opts : LaunchOptions} {s₀ : Sys} (hp : s₀.pending = [])
    (hsmall : ∀ nodes ∈ s₀.dev.maxListNodes, Small nodes) (hlacks : s₀.dev.Lacks opts)
    (htakes : s₀.TakesArgs opts.args.length) : Triple (fun s => s = s₀) (stageArgs opts)
      ⟨fun _ => Settles s₀.dev.argsSlots.length s₀.world.accepted.length,
        fun _ => Rested (Settles s₀.dev.argsSlots.length s₀.world.accepted.length),
        fun _ s => True ∧ Settles s₀.dev.argsSlots.length s₀.world.accepted.length s⟩ := by
  have h := submits_settles s₀.dev.argsSlots.length s₀.world.accepted.length
  obtain ⟨hfree, htakes⟩ := htakes
  match hscript : s₀.script, htakes with
  | mapping :: ticked :: script, htakes =>
    rw [takesArgs, Bool.and_eq_true] at htakes
    refine .ite (fun hnil => absurd (by simpa using hnil) hlacks.1) fun _ => ?_
    refine .bind ((argsSlot_brink hlacks).conseq (fun _ h => h) (fun _ _ h => h) (fun _ s hs => ?_)
      fun s hs => ?_) fun i => .bind (R := fun _ =>
        Settles s₀.dev.argsSlots.length s₀.world.accepted.length) (h.orAbandon ?_) fun _ =>
          .pure fun _ h => h
    · exact ⟨.inl (by rw [hs]), by rw [hs, hp]⟩
    · exact ⟨trivial, .inl (by rw [hs])⟩
    refine .bind ((@pushArgsDma_brink _ _ _ _ _ _ mapping ticked hsmall hlacks.1 htakes.1 htakes.2).conseq
      (fun s hs => ?_) (fun _ _ h => .inr h) (fun _ _ h => .inr h) fun _ h => ⟨trivial, .inr h.2⟩)
        fun _ => .bind (h.awaitArgs opts) fun _ => .pure fun _ h => h
    obtain ⟨hadds, hout, hcached, hworld, hscript', -⟩ := hs
    exact ⟨⟨⟨hout ▸ hfree, hcached⟩, hadds⟩, by rw [hworld], by rw [hscript', hscript]⟩

end EtSoc

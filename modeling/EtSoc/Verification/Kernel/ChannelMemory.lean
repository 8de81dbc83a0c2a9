import EtSoc.Verification.Kernel.ChannelLayout

/-! # Messages in the memory

What the caches and the shared memory have of each message, by the accounts of the two Minions,
and what an action of one of them makes of it. -/

namespace EtSoc.Channel

open CacheOps WriteBackCache System

variable {args : Args} {hart : Role → UInt32} {mem : Memory} {p q : UInt32} {clock v : UInt64}
  {addr line : ℕ} {access : Access} {cs : List Cache}

/-! ## Accesses to the memory -/

theorem perform_dirtyIn {D : Cache → ℕ → Prop} (h : mem.DirtyIn D)
    (hD : ∀ c d l, hierarchy.next c = some d → D c l → D d l)
    (hstore : ∀ b w, access = .store b w → D (core q) (lineOf b)) :
    (perform q clock mem access).2.DirtyIn D := by
  cases access with
  | load b => exact h.fetch
  | store b w => exact h.store (hstore b w rfl)
  | flush dst line => exact h.moveAll hD
  | evict dst line => exact h.moveAll hD
  | clock => exact h
  | none => exact h

theorem perform_dirtyOn (h : mem.DirtyOn line cs) (hcs : hierarchy.IsPath cs)
    (hstore : ∀ b w, access = .store b w → lineOf b ≠ line) :
    (perform q clock mem access).2.DirtyOn line cs := by
  cases access with
  | load b => exact h.fetch
  | store b w => exact h.store fun heq => absurd heq (hstore b w rfl)
  | flush dst line => exact h.moveAll hcs
  | evict dst line => exact h.moveAll hcs
  | clock => exact h
  | none => exact h

theorem perform_holds (h : mem.Holds lineOf cs addr v) (hcs : hierarchy.IsPath cs)
    (hstore : ∀ b w, access = .store b w →
      lineOf addr ≠ lineOf b ∨ cs = path q ∧ addr ≠ b) :
    (perform q clock mem access).2.Holds lineOf cs addr v := by
  cases access with
  | load b => exact h.fetch hcs
  | store b w =>
    rcases hstore b w rfl with hline | ⟨rfl, hne⟩
    · exact (same_store hline).holds h
    · exact Holds.store h hne
  | flush dst line => exact h.moveAll hcs
  | evict dst line => exact h.moveAll hcs
  | clock => exact h
  | none => exact h

theorem perform_visible {V : UInt64 → Prop} (h : mem.Visible lineOf addr V)
    (hstore : ∀ w, access = .store addr w → V w) :
    (perform q clock mem access).2.Visible lineOf addr V := by
  cases access with
  | load b => exact h.fetch
  | store b w => exact h.store fun heq => hstore w (heq ▸ rfl)
  | flush dst line => exact h.moveAll
  | evict dst line => exact h.moveAll
  | clock => exact h
  | none => exact h

/-- After a write-back the line is dirty from the destination on at most. -/
theorem flush_dirtyOn (h : mem.DirtyOn line (path q)) (dst : CacheDest) :
    (perform q clock mem (.flush dst line)).2.DirtyOn line
      ((path q).drop dst.toU64.toNat) := by
  have hpath := isPath_path q
  rw [← List.take_append_drop dst.toU64.toNat (path q)] at h hpath
  exact h.writeBackAll hpath

/-- After an invalidation a Minion sees what the caches from there on have. -/
theorem evict_holds {depth : ℕ} {dst : CacheDest}
    (h : mem.Holds lineOf ((path q).drop depth) addr v) (hdepth : depth ≤ dst.toU64.toNat) :
    (perform q clock mem (.evict dst (lineOf addr))).2.Holds lineOf (path q) addr v := by
  have hpath := isPath_path q
  rw [← List.take_append_drop depth (path q)] at hpath
  have houter : (perform q clock mem (.evict dst (lineOf addr))).2.Holds lineOf
      ((path q).drop depth) addr v := perform_holds h hpath.of_append (by simp)
  have hall : (perform q clock mem (.evict dst (lineOf addr))).2.Holds lineOf
      ((path q).take depth ++ (path q).drop depth) addr v := houter.of_absent fun c hc => ?_
  · rwa [List.take_append_drop] at hall
  · have hbefore : hierarchy.IsPath (before dst q ++ (path q).drop dst.toU64.toNat) := by
      rw [before, List.take_append_drop]
      exact isPath_path q
    exact moveAll_evict hbefore (List.take_subset_take_left _ hdepth hc)

/-! ## Flags -/

/-- A value that a flag may have once message `n` is announced: that of no later message. -/
def Announces (e : Endpoint) (n : ℕ) (v : UInt64) : Prop :=
  ∀ i, n < i → i ≤ e.iterations → v ≠ e.flagValue i

theorem Announces.mono {e : Endpoint} {m n : ℕ} (h : Announces e m v) (hle : m ≤ n) :
    Announces e n v :=
  fun i hi => h i (Nat.lt_of_le_of_lt hle hi)

theorem flagValue_toNat (args : Args) (ρ : Role) {n : ℕ} (hn : n < 2 ^ 20) :
    ((args.endpoint ρ).flagValue n).toNat = args.epoch.toNat <<< 32 + n := by
  have hlt := args.epoch.toNat_lt
  have hsize : UInt64.size = 2 ^ 64 := rfl
  have hnat : (UInt64.ofNat n).toNat = n := UInt64.toNat_ofNat_of_lt' (by omega)
  have hepoch : (args.epoch.toUInt64 <<< 32).toNat = args.epoch.toNat <<< 32 := by
    rw [UInt64.toNat_shiftLeft, UInt32.toNat_toUInt64, show (32 : UInt64).toNat % 64 = 32 from rfl,
      Nat.shiftLeft_eq]
    omega
  rw [Endpoint.flagValue, UInt64.toNat_or, hnat,
    show (args.endpoint ρ).epoch = args.epoch.toUInt64 from rfl, hepoch,
    Nat.shiftLeft_add_eq_or_of_lt (by omega)]

theorem flagValue_inj (args : Args) (ρ : Role) {m n : ℕ} (hm : m < 2 ^ 20) (hn : n < 2 ^ 20)
    (heq : (args.endpoint ρ).flagValue m = (args.endpoint ρ).flagValue n) : m = n := by
  have hm := flagValue_toNat args ρ hm
  have hn := flagValue_toNat args ρ hn
  rw [heq, hn] at hm
  omega

/-- A Minion that sees its flag at the number it waits for was sent that message. -/
theorem Announces.le {ρ ρ' : Role} {m n : ℕ}
    (h : Announces (args.endpoint ρ) n ((args.endpoint ρ').flagValue m))
    (hm : m ≤ (args.endpoint ρ).iterations) : m ≤ n := by
  by_contra hlt
  exact h m (Nat.lt_of_not_le hlt) hm rfl

/-! ## What is known of the messages -/

/-- What the caches and the memory have of the payloads, by the accounts of the two Minions. -/
structure Payloads (args : Args) (hart : Role → UInt32) (mem : Memory) (a : Role → Account) :
    Prop where
  sent : ∀ ρ k, k < (args.endpoint ρ).payloadWords → k < (a ρ).stored → 1 ≤ (a ρ).message →
    mem.Holds lineOf (path (hart ρ)) (args.data ρ + wordBytes * k)
      ((args.endpoint ρ).word (a ρ).message k)
  settled : ∀ ρ k, k < (args.endpoint ρ).payloadWords → k < (a ρ).stored → 1 ≤ (a ρ).message →
    k / 8 < (a ρ).flushed →
    mem.DirtyOn (lineOf (args.data ρ + wordBytes * k)) (common args hart)
  fresh : ∀ ρ k, k < (args.endpoint ρ).payloadWords → k / 8 < (a ρ).evicted →
    mem.Holds lineOf (path (hart ρ)) (args.data ρ.other + wordBytes * k)
      ((args.endpoint ρ.other).word (a ρ).heard k)

/-- The same with the flags; nobody has heard of a message that was not announced. -/
structure Known (args : Args) (hart : Role → UInt32) (mem : Memory) (a : Role → Account) : Prop
    extends Payloads args hart mem a where
  flags : ∀ ρ, mem.Visible lineOf (args.flag ρ) (Announces (args.endpoint ρ) (a ρ).flagged)
  asked : ∀ ρ, (a ρ.other).heard ≤ (a ρ).flagged

/-- The words of a payload are dirty on the way of their Minion only. -/
def Apart (args : Args) (hart : Role → UInt32) (mem : Memory) : Prop :=
  ∀ ρ k, k < (args.endpoint ρ).payloadWords →
    mem.DirtyOn (lineOf (args.data ρ + wordBytes * k)) (path (hart ρ))

variable {a : Role → Account} {ρ : Role} {b : Account}

theorem Payloads.weaken {a' : Role → Account} (h : Payloads args hart mem a)
    (hweaker : ∀ ρ, (a' ρ).Weaker (a ρ)) : Payloads args hart mem a' := by
  constructor
  · intro ρ k hk hstored hmessage
    rcases (hweaker ρ).sent with ⟨hm, hs, -⟩ | hnone
    · rw [hm] at hmessage ⊢
      exact h.sent ρ k hk (hs ▸ hstored) hmessage
    · omega
  · intro ρ k hk hstored hmessage hflushed
    rcases (hweaker ρ).sent with ⟨hm, hs, hf⟩ | hnone
    · rw [hm] at hmessage
      exact h.settled ρ k hk (hs ▸ hstored) hmessage (hf ▸ hflushed)
    · omega
  · intro ρ k hk hevicted
    rcases (hweaker ρ).evicted with he | hnone
    · rw [(hweaker ρ).heard]
      exact h.fresh ρ k hk (he ▸ hevicted)
    · omega

theorem Known.weaken {a' : Role → Account} (h : Known args hart mem a)
    (hweaker : ∀ ρ, (a' ρ).Weaker (a ρ)) : Known args hart mem a' := by
  refine ⟨h.toPayloads.weaken hweaker, ?_, ?_⟩
  · intro ρ
    rw [(hweaker ρ).flagged]
    exact h.flags ρ
  · intro ρ
    rw [(hweaker ρ).flagged, (hweaker ρ.other).heard]
    exact h.asked ρ

/-- Of the two Minions one waits while the other is awake, and it is not ahead. -/
theorem other_of_awake (hordered : ∀ ρ, (a ρ).Ordered (args.endpoint ρ))
    (hasked : ∀ ρ, (a ρ.other).heard ≤ (a ρ).flagged) (hawake : (a ρ).Awake ρ) :
    ¬(a ρ.other).Awake ρ.other ∧ (a ρ.other).flagged = (a ρ).heard := by
  have hping := (hordered .ping).turn
  have hpong := (hordered .pong).turn
  have hasked' := hasked .ping
  have hanswered := hasked .pong
  cases ρ <;>
    simp only [Args.endpoint, Account.Awake, Account.Waiting, Role.other] at * <;> omega

/-- The message that a Minion has heard of is stored and written back while it is awake. -/
theorem posted_of_awake (hplaced : Placed args hart)
    (hordered : ∀ ρ, (a ρ).Ordered (args.endpoint ρ))
    (hasked : ∀ ρ, (a ρ.other).heard ≤ (a ρ).flagged) (hawake : (a ρ).Awake ρ)
    (hheard : 1 ≤ (a ρ).heard) :
    1 ≤ (a ρ.other).message ∧ (a ρ.other).message = (a ρ).heard ∧
      (a ρ.other).stored = (args.endpoint ρ.other).payloadWords ∧
      ∀ k < (args.endpoint ρ.other).payloadWords, k / 8 < (a ρ.other).flushed := by
  obtain ⟨b, r, w, i, hn⟩ := hplaced.numbers
  obtain ⟨hwaits, hflagged⟩ := other_of_awake hordered hasked hawake
  rcases (hordered ρ.other).sent with ⟨hmessage, hstored, hflushed⟩ | ⟨-, hother⟩
  · refine ⟨by omega, by omega, hstored, fun k hk => ?_⟩
    rw [hn.payloadWords] at hk
    rw [hflushed, hn.sendLines]
    omega
  · exact absurd hother hwaits

/-- The caches that both share have what is written back. -/
theorem Payloads.arrived (h : Payloads args hart mem a) (hplaced : Placed args hart) {k : ℕ}
    (hk : k < (args.endpoint ρ).payloadWords) (hstored : k < (a ρ).stored)
    (hmessage : 1 ≤ (a ρ).message) (hflushed : k / 8 < (a ρ).flushed) :
    mem.Holds lineOf (common args hart) (args.data ρ + wordBytes * k)
      ((args.endpoint ρ).word (a ρ).message k) := by
  have hpath := isPath_path (hart ρ)
  have hsent := h.sent ρ k hk hstored hmessage
  rw [← hplaced.take_append_common ρ] at hsent hpath
  exact hsent.of_append hpath (h.settled ρ k hk hstored hmessage hflushed)

/-- An access that stores to no word of a message under way, nor to a line of one that is written
back or read. -/
theorem Known.keep (h : Known args hart mem a) (q : UInt32) (clock : UInt64) (access : Access)
    (hplaced : Placed args hart) (hordered : ∀ ρ, (a ρ).Ordered (args.endpoint ρ))
    (hstore : ∀ b w, access = .store b w → ∀ ρ k, k < (args.endpoint ρ).payloadWords →
      lineOf (args.data ρ + wordBytes * k) ≠ lineOf b ∨
      hart ρ = q ∧ b = args.data ρ + wordBytes * (a ρ).stored ∧
        (a ρ).stored < (args.endpoint ρ).payloadWords ∧ (a ρ).flushed = 0) :
    Payloads args hart (perform q clock mem access).2 a := by
  constructor
  · intro ρ k hk hstored hmessage
    refine perform_holds (h.sent ρ k hk hstored hmessage) (isPath_path _) fun b w heq => ?_
    rcases hstore b w heq ρ k hk with hline | ⟨rfl, rfl, -, -⟩
    · exact .inl hline
    · refine .inr ⟨rfl, ?_⟩
      simp only [wordBytes]
      omega
  · intro ρ k hk hstored hmessage hflushed
    refine perform_dirtyOn (h.settled ρ k hk hstored hmessage hflushed) (isPath_common _ _)
      fun b w heq => ?_
    rcases hstore b w heq ρ k hk with hline | ⟨-, -, -, hnone⟩
    · exact hline.symm
    · omega
  · intro ρ k hk hevicted
    obtain ⟨(hawake : (a ρ).Awake ρ), hheard⟩ := (hordered ρ).read (Nat.zero_lt_of_lt hevicted)
    obtain ⟨-, -, hall, -⟩ := posted_of_awake hplaced hordered h.asked hawake hheard
    refine perform_holds (h.fresh ρ k hk hevicted) (isPath_path _) fun b w heq => .inl ?_
    rcases hstore b w heq ρ.other k hk with hline | ⟨-, -, hlt, -⟩
    · exact hline
    · omega

/-- A change of one account. -/
theorem Payloads.update (h : Payloads args hart mem a)
    (hsent : ∀ k, k < (args.endpoint ρ).payloadWords → k < b.stored → 1 ≤ b.message →
      mem.Holds lineOf (path (hart ρ)) (args.data ρ + wordBytes * k)
        ((args.endpoint ρ).word b.message k))
    (hsettled : ∀ k, k < (args.endpoint ρ).payloadWords → k < b.stored → 1 ≤ b.message →
      k / 8 < b.flushed →
      mem.DirtyOn (lineOf (args.data ρ + wordBytes * k)) (common args hart))
    (hfresh : ∀ k, k < (args.endpoint ρ).payloadWords → k / 8 < b.evicted →
      mem.Holds lineOf (path (hart ρ)) (args.data ρ.other + wordBytes * k)
        ((args.endpoint ρ.other).word b.heard k)) :
    Payloads args hart mem (Function.update a ρ b) := by
  constructor <;> intro ρ' <;> rcases eq_or_ne ρ' ρ with rfl | hne
  · simpa only [Function.update_self] using hsent
  · simpa only [Function.update_of_ne hne] using h.sent ρ'
  · simpa only [Function.update_self] using hsettled
  · simpa only [Function.update_of_ne hne] using h.settled ρ'
  · simpa only [Function.update_self] using hfresh
  · simpa only [Function.update_of_ne hne] using h.fresh ρ'

theorem Known.answered (h : Known args hart mem a) (ρ : Role) :
    (a ρ).heard ≤ (a ρ.other).flagged := by
  cases ρ with
  | ping => exact h.asked .pong
  | pong => exact h.asked .ping

theorem asked_update (hasked : ∀ ρ, (a ρ.other).heard ≤ (a ρ).flagged)
    (hflagged : (a ρ).flagged ≤ b.flagged) (hheard : b.heard ≤ (a ρ.other).flagged) (ρ' : Role) :
    (Function.update a ρ b ρ'.other).heard ≤ (Function.update a ρ b ρ').flagged := by
  have hping := hasked .ping
  have hpong := hasked .pong
  cases ρ <;> cases ρ' <;> simp [Role.other, Function.update] at * <;> omega

/-- The flags after an access that stores to the flag of the Minion alone, if to any. -/
theorem Known.flags_act (h : Known args hart mem a) (hflagged : (a ρ).flagged ≤ b.flagged)
    (hown : ∀ w, access = .store (args.flag ρ) w → Announces (args.endpoint ρ) b.flagged w)
    (hother : ∀ ρ', ρ' ≠ ρ → ∀ w, access ≠ .store (args.flag ρ') w) (ρ' : Role) :
    (perform q clock mem access).2.Visible lineOf (args.flag ρ')
      (Announces (args.endpoint ρ') (Function.update a ρ b ρ').flagged) := by
  rcases eq_or_ne ρ' ρ with rfl | hne
  · rw [Function.update_self]
    exact perform_visible ((h.flags ρ').mono fun v hv => hv.mono hflagged) hown
  · rw [Function.update_of_ne hne]
    exact perform_visible (h.flags ρ') fun w heq => absurd heq (hother ρ' hne w)

/-! ## What a Minion does -/

/-- A word of a message is stored. -/
theorem Known.word (h : Known args hart mem a) (hplaced : Placed args hart)
    (hordered : ∀ ρ, (a ρ).Ordered (args.endpoint ρ)) (hapart : Apart args hart mem)
    (hindex : (a ρ).stored < (args.endpoint ρ).payloadWords) (hflushed : (a ρ).flushed = 0) :
    Known args hart
      (perform (hart ρ) clock mem (.store (args.data ρ + wordBytes * (a ρ).stored)
        ((args.endpoint ρ).word (a ρ).message (a ρ).stored))).2
      (Function.update a ρ { a ρ with stored := (a ρ).stored + 1, flushed := 0 }) := by
  have hline (ρ' : Role) :
      lineOf (args.flag ρ') ≠ lineOf (args.data ρ + wordBytes * (a ρ).stored) :=
    hplaced.lineOf_flag_ne ρ' ρ (a ρ).stored
  have hkeep := h.keep (hart ρ) clock (.store (args.data ρ + wordBytes * (a ρ).stored)
    ((args.endpoint ρ).word (a ρ).message (a ρ).stored)) hplaced hordered (by
      intro b w heq ρ' k hk
      obtain ⟨rfl, -⟩ := Access.store.inj heq
      rcases eq_or_ne ρ' ρ with rfl | hne
      · exact .inr ⟨rfl, rfl, hindex, hflushed⟩
      · exact .inl fun heq => hne (hplaced.role_eq_of_line hk hindex heq))
  refine ⟨hkeep.update ?_ ?_ ?_, h.flags_act (Nat.le_refl _) ?_ ?_, ?_⟩
  · intro k hk hlt hmessage
    by_cases hk' : k = (a ρ).stored
    · subst hk'
      exact Holds.of_store (hapart ρ _ hk)
    · exact hkeep.sent ρ k hk (by simp only at hlt; omega) hmessage
  · intro k _ _ _ hflushed
    simp at hflushed
  · exact hkeep.fresh ρ
  · intro w heq
    exact absurd (congrArg lineOf (Access.store.inj heq).1.symm) (hline ρ)
  · intro ρ' _ w heq
    exact absurd (congrArg lineOf (Access.store.inj heq).1.symm) (hline ρ')
  · exact asked_update h.asked (Nat.le_refl _) (h.answered ρ)

/-- A line of a message is written back to a cache that both share. -/
theorem Known.writeBack (h : Known args hart mem a) (hplaced : Placed args hart)
    (hordered : ∀ ρ, (a ρ).Ordered (args.endpoint ρ)) (hapart : Apart args hart mem)
    (hnumber : (a ρ).flushed < (args.endpoint ρ).sendLines) :
    Known args hart
      (perform (hart ρ) clock mem (.flush (args.endpoint ρ).writebackDestination
        (((args.endpoint ρ).dataFlushes (args.endpoint ρ).writebackDestination).getD
          (a ρ).flushed 0))).2
      (Function.update a ρ { a ρ with flushed := (a ρ).flushed + 1 }) := by
  obtain ⟨_, _, _, _, hn⟩ := hplaced.numbers
  have hkeep := h.keep (hart ρ) clock (.flush (args.endpoint ρ).writebackDestination
    (((args.endpoint ρ).dataFlushes (args.endpoint ρ).writebackDestination).getD (a ρ).flushed 0))
    hplaced hordered (by simp)
  refine ⟨hkeep.update (hkeep.sent ρ) ?_ (hkeep.fresh ρ), h.flags_act (Nat.le_refl _) (by simp)
    (by simp), asked_update h.asked (Nat.le_refl _) (h.answered ρ)⟩
  intro k hk hstored hmessage hlt
  by_cases hline : k / 8 = (a ρ).flushed
  · rw [hn.sendLines] at hnumber
    rw [hn.getD_dataFlushes ρ _ hnumber, ← hline, ← hplaced.lineOf_word]
    refine (flush_dirtyOn (hapart ρ k hk) _).mono fun c hc => ?_
    rw [hplaced.common_eq ρ]
    exact List.drop_subset_drop_left _ (depth_le hplaced.writeback) hc
  · exact hkeep.settled ρ k hk hstored hmessage (by simp only at hlt; omega)

/-- The flag of a message is stored. -/
theorem Known.post (h : Known args hart mem a) (hplaced : Placed args hart)
    (hordered : ∀ ρ, (a ρ).Ordered (args.endpoint ρ)) :
    Known args hart
      (perform (hart ρ) clock mem (.store (args.flag ρ)
        ((args.endpoint ρ).flagValue ((a ρ).flagged + 1)))).2
      (Function.update a ρ { a ρ with flagged := (a ρ).flagged + 1 }) := by
  obtain ⟨_, _, _, i, hn⟩ := hplaced.numbers
  have hkeep := h.keep (hart ρ) clock
    (.store (args.flag ρ) ((args.endpoint ρ).flagValue ((a ρ).flagged + 1))) hplaced hordered (by
      intro b w heq ρ' k _
      obtain ⟨rfl, -⟩ := Access.store.inj heq
      exact .inl (hplaced.lineOf_flag_ne ρ ρ' k).symm)
  refine ⟨hkeep.update (hkeep.sent ρ) (hkeep.settled ρ) (hkeep.fresh ρ),
    h.flags_act (Nat.le_succ _) ?_ ?_, asked_update h.asked (Nat.le_succ _) (h.answered ρ)⟩
  · intro w heq n hlt hle heq'
    have hiterations := hn.iterations_lt
    simp only at hlt
    replace hle : n ≤ i := hn.iterations ▸ hle
    rw [← (Access.store.inj heq).2] at heq'
    have hn := flagValue_inj args ρ (by omega) (by omega) heq'
    omega
  · intro ρ' hne w heq
    exact hne (hplaced.flag_inj (Access.store.inj heq).1).symm

/-- The flag of the other one announces the next message. -/
theorem Known.hear (h : Known args hart mem a) (hplaced : Placed args hart)
    (hordered : ∀ ρ, (a ρ).Ordered (args.endpoint ρ))
    (hlt : (a ρ).heard < (args.endpoint ρ).iterations)
    (hv : (perform (hart ρ) clock mem (.load (args.flag ρ.other))).1 =
      (args.endpoint ρ).flagValue ((a ρ).heard + 1)) :
    Known args hart (perform (hart ρ) clock mem (.load (args.flag ρ.other))).2
      (Function.update a ρ { a ρ with heard := (a ρ).heard + 1, evicted := 0 }) := by
  have hkeep := h.keep (hart ρ) clock (.load (args.flag ρ.other)) hplaced hordered (by simp)
  have hseen : Announces (args.endpoint ρ.other) (a ρ.other).flagged
      ((args.endpoint ρ).flagValue ((a ρ).heard + 1)) := hv ▸ (h.flags ρ.other).load _
  refine ⟨hkeep.update (hkeep.sent ρ) (hkeep.settled ρ) ?_, h.flags_act (Nat.le_refl _) (by simp)
    (by simp), asked_update h.asked (Nat.le_refl _) (hseen.le hlt)⟩
  intro k _ hevicted
  simp at hevicted

/-- A line of the message that was announced is invalidated, and is read then from a cache that
both share. -/
theorem Known.evict (h : Known args hart mem a) (hplaced : Placed args hart)
    (hordered : ∀ ρ, (a ρ).Ordered (args.endpoint ρ))
    (hnumber : (a ρ).evicted < (args.endpoint ρ).receiveLines) (hawake : (a ρ).Awake ρ)
    (hheard : 1 ≤ (a ρ).heard) :
    Known args hart
      (perform (hart ρ) clock mem (.evict (args.endpoint ρ).invalidateDestination
        ((args.endpoint ρ).dataEvicts.getD (a ρ).evicted 0))).2
      (Function.update a ρ { a ρ with evicted := (a ρ).evicted + 1 }) := by
  obtain ⟨_, _, _, _, hn⟩ := hplaced.numbers
  have hkeep := h.keep (hart ρ) clock (.evict (args.endpoint ρ).invalidateDestination
    ((args.endpoint ρ).dataEvicts.getD (a ρ).evicted 0)) hplaced hordered (by simp)
  refine ⟨hkeep.update (hkeep.sent ρ) (hkeep.settled ρ) ?_, h.flags_act (Nat.le_refl _) (by simp)
    (by simp), asked_update h.asked (Nat.le_refl _) (h.answered ρ)⟩
  intro k hk hlt
  by_cases hline : k / 8 = (a ρ).evicted
  · obtain ⟨hfirst, hmessage, hstored, hflushed⟩ :=
      posted_of_awake hplaced hordered h.asked hawake hheard
    have harrived : mem.Holds lineOf (common args hart) (args.data ρ.other + wordBytes * k)
        ((args.endpoint ρ.other).word (a ρ.other).message k) :=
      h.toPayloads.arrived hplaced hk (hstored ▸ hk) hfirst (hflushed k hk)
    rw [hplaced.common_eq ρ, hmessage] at harrived
    rw [hn.receiveLines] at hnumber
    rw [hn.getD_dataEvicts ρ hnumber, ← hline, ← hplaced.lineOf_word]
    exact evict_holds harrived (depth_le hplaced.invalidate)
  · exact hkeep.fresh ρ k hk (by simp only at hlt; omega)

/-- What is known after a step of a Minion. -/
theorem Known.act (h : Known args hart mem a) (hplaced : Placed args hart)
    (hordered : ∀ ρ, (a ρ).Ordered (args.endpoint ρ)) (hapart : Apart args hart mem)
    (hact : (args.endpoint ρ).Act (perform (hart ρ) clock mem access).1 (a ρ) access b) :
    Known args hart (perform (hart ρ) clock mem access).2 (Function.update a ρ b) := by
  cases hact with
  | report _ hstore =>
    rw [Function.update_eq_self]
    refine ⟨h.keep (hart ρ) clock _ hplaced hordered ?_, ?_, h.asked⟩
    · intro b w heq ρ' k hk
      exact .inl ((hplaced.reports_ne (hstore b w heq)).1 ρ' k hk)
    · intro ρ'
      refine perform_visible (h.flags ρ') fun w heq => ?_
      exact absurd rfl ((hplaced.reports_ne (hstore _ _ heq)).2 ρ')
  | word index hindex hstored hflushed =>
    subst hstored
    exact h.word hplaced hordered hapart hindex hflushed
  | line number hnumber hflushed =>
    subst hflushed
    exact h.writeBack hplaced hordered hapart hnumber
  | post => exact h.post hplaced hordered
  | hear hlt hv => exact h.hear hplaced hordered hlt hv
  | evict number hnumber hevicted hawake hheard =>
    subst hevicted
    exact h.evict hplaced hordered hnumber hawake hheard

end EtSoc.Channel
